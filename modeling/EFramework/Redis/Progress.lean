import EFramework.Redis.Halting

/-! # Reads that bring something

The reader of the program returns 0 at the end of the stream and with a full buffer. A busy
reader does not return there. A run on it that comes to its end is the program's run, and so is
a run that is given more rounds.
-/

namespace EFramework

open Lib

namespace Halting

/-- `reply_read_more`, where it cannot but bring a byte or fail. -/
def busyRead (con : RedisConnection) : Outcome (Int × RedisConnection) :=
  if con.src = [] ∨ con.buf.length ≤ con.pending then .error .idle else replyReadMore con

/-! ## Runs that go further -/

section Extends

variable {lost : Halt → Prop} {more more' : RedisConnection → Outcome (Int × RedisConnection)}
  {fuel fuel' : Nat}

theorem returning_extends {x y : Outcome (RedisReply × RedisConnection)}
    (h : Extends lost x y) : Extends lost (returning x) (returning y) :=
  h.bind (fun _ => .refl _)

variable (hlost : lost .fuel) (hmore : ∀ con, Extends lost (more con) (more' con))

include hlost hmore

theorem awaitLine_extends (hle : fuel ≤ fuel') (buf : Nat) (con : RedisConnection) :
    Extends lost (awaitLine more fuel buf con) (awaitLine more' fuel' buf con) := by
  induction fuel generalizing fuel' buf con with
  | zero => exact .error hlost _
  | succ fuel ih =>
      obtain ⟨fuel', rfl⟩ := Nat.exists_eq_add_of_le' (Nat.le_of_add_left_le hle)
      refine Extends.value (fun r => ?_)
      cases r with
      | some k => exact .refl _
      | none =>
          exact (hmore con).bind (fun r => .ite (.refl _) (ih (Nat.le_of_succ_le_succ hle) 0 r.2))

theorem parseLong_extends (hle : fuel ≤ fuel') (buf : Nat) (con : RedisConnection) :
    Extends lost (parseLong more fuel buf con) (parseLong more' fuel' buf con) := by
  refine returning_extends (Extends.ite ?_ (.refl _))
  exact (awaitLine_extends hlost hmore hle buf _).bind (fun _ => .refl _)

theorem copyRest_extends (hle : fuel ≤ fuel') (strlen : Nat) (content : Bytes)
    (con : RedisConnection) :
    Extends lost (copyRest more strlen fuel content con)
      (copyRest more' strlen fuel' content con) := by
  induction fuel generalizing fuel' content con with
  | zero => exact .error hlost _
  | succ fuel ih =>
      obtain ⟨fuel', rfl⟩ := Nat.exists_eq_add_of_le' (Nat.le_of_add_left_le hle)
      refine Extends.ite ((hmore con).bind (fun r => ?_)) (.refl _)
      refine Extends.ite (.refl _) (Extends.ite (Extends.value (fun bytes => ?_)) (.refl _))
      exact ih (Nat.le_of_succ_le_succ hle) _ _

theorem parseString_extends (hle : fuel ≤ fuel') (buf strlen : Nat) (con : RedisConnection) :
    Extends lost (parseString more fuel buf strlen con)
      (parseString more' fuel' buf strlen con) := by
  refine returning_extends (Extends.ite (Extends.ite (.refl _) ?_) (.refl _))
  refine Extends.ite (Extends.ite (Extends.ite ?_ (.refl _)) (.refl _)) (.refl _)
  refine Extends.value (fun content => ?_)
  exact (copyRest_extends hlost hmore hle strlen content _).bind (fun _ => .refl _)

theorem parseSingleString_extends (hle : fuel ≤ fuel') (buf : Nat) (con : RedisConnection) :
    Extends lost (parseSingleString more fuel buf con) (parseSingleString more' fuel' buf con) := by
  refine returning_extends ((awaitLine_extends hlost hmore hle _ _).bind (fun line => ?_))
  rcases line with ⟨_ | ⟨buf, k⟩, con⟩
  · exact .refl _
  · exact parseString_extends hlost hmore hle buf k con

theorem parseBulkString_extends (hle : fuel ≤ fuel') (buf : Nat) (con : RedisConnection) :
    Extends lost (parseBulkString more fuel buf con) (parseBulkString more' fuel' buf con) := by
  refine returning_extends ((awaitLine_extends hlost hmore hle _ _).bind (fun line => ?_))
  rcases line with ⟨_ | ⟨buf, k⟩, con⟩
  · exact .refl _
  · exact Extends.value (fun strlen => parseString_extends hlost hmore hle _ _ _)

theorem readUntilError_extends (hle : fuel ≤ fuel') (con : RedisConnection) :
    Extends lost (readUntilError more fuel con) (readUntilError more' fuel' con) := by
  induction fuel generalizing fuel' con with
  | zero => exact .error hlost _
  | succ fuel ih =>
      obtain ⟨fuel', rfl⟩ := Nat.exists_eq_add_of_le' (Nat.le_of_add_left_le hle)
      exact (hmore con).bind (fun r => .ite (.refl _) (ih (Nat.le_of_succ_le_succ hle) r.2))

section Elements

variable {p p' : Nat → RedisConnection → Outcome (RedisReply × RedisConnection)}
  (hp : ∀ buf con, Extends lost (p buf con) (p' buf con))

include hp

theorem parseElem_extends (hle : fuel ≤ fuel') (c : UInt8) (buf : Nat) (con : RedisConnection) :
    Extends lost (parseElem more fuel p c buf con) (parseElem more' fuel' p' c buf con) :=
  .ite (parseBulkString_extends hlost hmore hle buf con)
    (.ite (parseLong_extends hlost hmore hle buf con) (hp buf con))

theorem parseElems_extends (hle : fuel ≤ fuel') (num buf : Nat) (con : RedisConnection) :
    Extends lost (parseElems more fuel p num buf con)
      (parseElems more' fuel' p' num buf con) := by
  induction num generalizing buf con with
  | zero => exact .refl _
  | succ num ih =>
      refine Extends.value (fun c => Extends.ite ?_ ?_)
      · refine (parseElem_extends hlost hmore hp hle c buf con).bind (fun r => ?_)
        exact (ih _ _).bind (fun _ => .refl _)
      · exact (ih _ _).bind (fun _ => .refl _)

end Elements

theorem parseArray_extends (hle : fuel ≤ fuel') (buf : Nat) (con : RedisConnection) :
    Extends lost (parseArray more fuel buf con) (parseArray more' fuel' buf con) := by
  induction fuel generalizing fuel' buf con with
  | zero => exact .error hlost _
  | succ fuel ih =>
      obtain ⟨fuel', rfl⟩ := Nat.exists_eq_add_of_le' (Nat.le_of_add_left_le hle)
      have hle' := Nat.le_of_succ_le_succ hle
      refine returning_extends (Extends.ite (Extends.value (fun line => ?_)) (.refl _))
      cases line with
      | none => exact (readUntilError_extends hlost hmore hle' _).bind (fun _ => .refl _)
      | some k =>
          refine Extends.value (fun repnum => ?_)
          refine Extends.ite (Extends.ite (.refl _) (Extends.ite ?_ (.refl _))) (.refl _)
          exact (parseElems_extends hlost hmore (ih hle') hle' _ _ _).bind (fun _ => .refl _)

theorem parseError_extends (hle : fuel ≤ fuel') (buf : Nat) (con : RedisConnection) :
    Extends lost (parseError more fuel buf con) (parseError more' fuel' buf con) := by
  refine returning_extends (Extends.ite ?_ (.refl _))
  exact (awaitLine_extends hlost hmore hle buf _).bind (fun _ => .refl _)

theorem readReply_extends (hle : fuel ≤ fuel') (con : RedisConnection) :
    Extends lost (readReply more fuel con) (readReply more' fuel' con) := by
  refine Extends.ite (.refl _) (Extends.value (fun c => ?_))
  refine Extends.ite (parseError_extends hlost hmore hle 0 _) ?_
  refine Extends.ite (parseSingleString_extends hlost hmore hle 0 _) ?_
  refine Extends.ite (parseLong_extends hlost hmore hle 0 _) ?_
  refine Extends.ite (parseArray_extends hlost hmore hle 0 _) ?_
  exact Extends.ite (parseBulkString_extends hlost hmore hle 0 _) (.refl _)

end Extends

theorem busyRead_extends {lost : Halt → Prop} (hlost : lost .idle) (con : RedisConnection) :
    Extends lost (busyRead con) (replyReadMore con) := by
  unfold busyRead
  split
  · exact .error hlost _
  · exact .refl _

end Halting

end EFramework
