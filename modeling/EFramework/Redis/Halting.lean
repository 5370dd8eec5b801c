import EFramework.Lib.Outcome
import EFramework.Redis.Model

/-! # Why a call has no result

The parsers run for an outcome with the reason why there is no result: the loops have not come
to their end yet, a step of the program is undefined, or the reader refuses a read. Without the
reasons it is the outcome of the model.
-/

namespace EFramework

open Lib

/-- `fuel` is not a halt of the program: the loops go on. -/
inductive Halt where
  | fuel
  | undefined
  | idle
deriving Repr, DecidableEq

namespace Halting

abbrev Outcome := Except Halt

instance : Stopping Outcome where
  spent := .error .fuel
  defined := orStop .undefined

/-! ## The same results -/

section Parsers

variable (more : RedisConnection → Outcome (Int × RedisConnection))

theorem toOption_returning {x : Outcome (RedisReply × RedisConnection)}
    {y : Option (RedisReply × RedisConnection)} (h : x.toOption = y) :
    (returning x).toOption = returning y := by
  rw [← h]
  cases x <;> rfl

/-- A reader without its reasons. -/
def plain (con : RedisConnection) : Option (Int × RedisConnection) := (more con).toOption

theorem toOption_awaitLine (fuel buf : Nat) (con : RedisConnection) :
    (awaitLine more fuel buf con).toOption = awaitLine (plain more) fuel buf con := by
  induction fuel generalizing buf con with
  | zero => rfl
  | succ fuel ih =>
      refine toOption_orStop_bind _ _ (fun r => ?_)
      cases r with
      | some k => rfl
      | none => exact toOption_bind rfl (fun r => toOption_ite rfl (ih 0 r.2))

theorem toOption_parseLong (fuel buf : Nat) (con : RedisConnection) :
    (parseLong more fuel buf con).toOption = parseLong (plain more) fuel buf con := by
  refine toOption_returning (toOption_ite ?_ rfl)
  refine toOption_bind (toOption_awaitLine more fuel buf _) (fun line => ?_)
  rcases line with ⟨_ | ⟨buf, k⟩, con⟩
  · rfl
  · exact toOption_orStop_bind _ _ (fun r => rfl)

theorem toOption_copyRest (strlen fuel : Nat) (content : Bytes) (con : RedisConnection) :
    (copyRest more strlen fuel content con).toOption =
      copyRest (plain more) strlen fuel content con := by
  induction fuel generalizing content con with
  | zero => rfl
  | succ fuel ih =>
      refine toOption_ite (toOption_bind rfl (fun r => ?_)) rfl
      refine toOption_ite rfl (toOption_ite ?_ ?_)
      · exact toOption_orStop_bind _ _ (fun bytes => ih _ _)
      · exact toOption_orStop_bind _ _ (fun bytes => rfl)

theorem toOption_parseString (fuel buf strlen : Nat) (con : RedisConnection) :
    (parseString more fuel buf strlen con).toOption =
      parseString (plain more) fuel buf strlen con := by
  refine toOption_returning (toOption_ite (toOption_ite rfl ?_) rfl)
  refine toOption_ite (toOption_ite (toOption_ite ?_ ?_) rfl) rfl
  · refine toOption_orStop_bind _ _ (fun content => ?_)
    refine toOption_bind (toOption_copyRest more strlen fuel content _) (fun r => ?_)
    rcases r with ⟨_ | content, con⟩ <;> rfl
  · exact toOption_orStop_bind _ _ (fun content => rfl)

theorem toOption_parseSingleString (fuel buf : Nat) (con : RedisConnection) :
    (parseSingleString more fuel buf con).toOption =
      parseSingleString (plain more) fuel buf con := by
  refine toOption_returning (toOption_bind (toOption_awaitLine more fuel _ _) (fun line => ?_))
  rcases line with ⟨_ | ⟨buf, k⟩, con⟩
  · rfl
  · exact toOption_parseString more fuel buf k con

theorem toOption_parseBulkString (fuel buf : Nat) (con : RedisConnection) :
    (parseBulkString more fuel buf con).toOption =
      parseBulkString (plain more) fuel buf con := by
  refine toOption_returning (toOption_bind (toOption_awaitLine more fuel _ _) (fun line => ?_))
  rcases line with ⟨_ | ⟨buf, k⟩, con⟩
  · rfl
  · exact toOption_orStop_bind _ _ (fun strlen => toOption_parseString more fuel _ _ _)

theorem toOption_readUntilError (fuel : Nat) (con : RedisConnection) :
    (readUntilError more fuel con).toOption =
      readUntilError (plain more) fuel con := by
  induction fuel generalizing con with
  | zero => rfl
  | succ fuel ih => exact toOption_bind rfl (fun r => toOption_ite rfl (ih r.2))

section Arrays

variable {p : Nat → RedisConnection → Outcome (RedisReply × RedisConnection)}
  {p' : Nat → RedisConnection → Option (RedisReply × RedisConnection)}

theorem toOption_parseElem (fuel : Nat) (hp : ∀ buf con, (p buf con).toOption = p' buf con)
    (c : UInt8) (buf : Nat) (con : RedisConnection) :
    (parseElem more fuel p c buf con).toOption =
      parseElem (plain more) fuel p' c buf con :=
  toOption_ite (toOption_parseBulkString more fuel buf con)
    (toOption_ite (toOption_parseLong more fuel buf con) (hp buf con))

theorem toOption_parseElems (fuel : Nat) (hp : ∀ buf con, (p buf con).toOption = p' buf con)
    (num buf : Nat) (con : RedisConnection) :
    (parseElems more fuel p num buf con).toOption =
      parseElems (plain more) fuel p' num buf con := by
  induction num generalizing buf con with
  | zero => rfl
  | succ num ih =>
      refine toOption_orStop_bind _ _ (fun c => toOption_ite ?_ ?_)
      · refine toOption_bind (toOption_parseElem more fuel hp c buf con) (fun r => ?_)
        exact toOption_bind (ih _ _) (fun r => rfl)
      · exact toOption_bind (ih _ _) (fun r => rfl)

end Arrays

theorem toOption_parseArray (fuel buf : Nat) (con : RedisConnection) :
    (parseArray more fuel buf con).toOption = parseArray (plain more) fuel buf con := by
  induction fuel generalizing buf con with
  | zero => rfl
  | succ fuel ih =>
      refine toOption_returning (toOption_ite ?_ rfl)
      refine toOption_orStop_bind _ _ (fun r => ?_)
      cases r with
      | none => exact toOption_bind (toOption_readUntilError more fuel _) (fun r => rfl)
      | some k =>
          refine toOption_orStop_bind _ _ (fun repnum => ?_)
          refine toOption_ite (toOption_ite rfl (toOption_ite ?_ rfl)) rfl
          exact toOption_bind (toOption_parseElems more fuel ih _ _ _) (fun r => rfl)

theorem toOption_parseError (fuel buf : Nat) (con : RedisConnection) :
    (parseError more fuel buf con).toOption = parseError (plain more) fuel buf con := by
  refine toOption_returning (toOption_ite ?_ rfl)
  refine toOption_bind (toOption_awaitLine more fuel buf _) (fun line => ?_)
  rcases line with ⟨_ | ⟨buf, stop⟩, con⟩
  · rfl
  refine toOption_ite (toOption_orStop_bind _ _ (fun pos => ?_)) rfl
  cases pos with
  | none => rfl
  | some pos =>
      refine toOption_orStop_bind _ _ (fun type => toOption_orStop_bind _ _ (fun spaces => ?_))
      exact toOption_ite (toOption_orStop_bind _ _ (fun errinfo => rfl)) rfl

theorem toOption_parseReply (fuel : Nat) (con : RedisConnection) :
    (parseReply more fuel con).toOption = parseReply (plain more) fuel con := by
  refine toOption_orStop_bind _ _ (fun c => ?_)
  refine toOption_ite (toOption_parseError more fuel 0 con) ?_
  refine toOption_ite (toOption_parseSingleString more fuel 0 con) ?_
  refine toOption_ite (toOption_parseLong more fuel 0 con) ?_
  refine toOption_ite (toOption_parseArray more fuel 0 con) ?_
  exact toOption_ite (toOption_parseBulkString more fuel 0 con) rfl

theorem toOption_readReply (fuel : Nat) (con : RedisConnection) :
    (readReply more fuel con).toOption = readReply (plain more) fuel con :=
  toOption_ite rfl (toOption_parseReply more fuel _)

end Parsers

def replyReadMore (con : RedisConnection) : Outcome (Int × RedisConnection) :=
  Stopping.defined (EFramework.replyReadMore con)

/-- With the program's own reader the calls have the same results. -/
theorem toOption_efRedisReadReply (fuel : Nat) (con : RedisConnection) :
    (readReply replyReadMore fuel con).toOption = efRedisReadReply fuel con := by
  have hplain : plain replyReadMore = EFramework.replyReadMore :=
    funext (fun con => toOption_orStop _ _)
  rw [toOption_readReply, hplain]
  rfl

end Halting

end EFramework
