import EFramework.Redis.Decoding

/-! # Error replies

The blocks of `type` and `err` have no room for the NUL that is stored behind the text, and the
cursor of the connection stays in front of the line.
-/

namespace EFramework

/-! ## The two strings -/

/-- The NUL is stored behind the block. -/
theorem endedCopy_eq_none (text : Bytes) (n : Nat) : endedCopy text n = none := by
  unfold endedCopy strncpy
  cases strncpyBytes text n with
  | none => rfl
  | some bs =>
      simp only [Option.bind_eq_bind, Option.bind_some, storeAt_start, List.length_replicate]
      split
      next h =>
        rw [Option.bind_some, storeAt, if_neg]
        simp only [List.length_append, List.length_drop, List.length_replicate, List.length_cons,
          List.length_nil]
        omega
      next => rfl

/-- The text of `err` is always copied, whether there is memory for `type` or not. -/
theorem parseError_ne_err (more : RedisConnection → Option (Int × RedisConnection))
    (fuel buf : Nat) (con con' : RedisConnection) (type err : Bytes) :
    parseError more fuel buf con ≠ some (.err type err, con') := by
  unfold parseError returning
  simp only [endedCopy_eq_none]
  intro h
  obtain ⟨⟨rep, con₁⟩, hrun, hrep⟩ := Option.bind_eq_some_iff.mp h
  obtain ⟨rfl, -⟩ := Prod.mk.inj (Option.some.inj hrep)
  split at hrun
  next =>
    obtain ⟨⟨line, con₂⟩, -, hline⟩ := Option.bind_eq_some_iff.mp hrun
    rcases line with _ | ⟨buf, stop⟩
    · cases hline
    · dsimp only at hline
      split at hline
      next =>
        obtain ⟨found, -, hfound⟩ := Option.bind_eq_some_iff.mp hline
        rcases found with _ | pos
        · cases hfound
        · obtain ⟨type', -, htype⟩ := Option.bind_eq_some_iff.mp hfound
          obtain ⟨spaces, -, hspaces⟩ := Option.bind_eq_some_iff.mp htype
          split at hspaces <;> cases hspaces
      next => cases hline
  next => cases hrun

/-! ## The reply -/

/-- What stands before the first space. -/
def errorName (e : Bytes) : Bytes := e.takeWhile (· ≠ 32)

/-- What stands behind the spaces that separate it from the name. -/
def errorText (e : Bytes) : Bytes := (e.dropWhile (· ≠ 32)).dropWhile (· = 32)

/-- The line `-e` is returned as an error, and the cursor of the connection is behind it. -/
def RepliesError (more : RedisConnection → Option (Int × RedisConnection)) (buf : Nat)
    (con : RedisConnection) (e : Bytes) : Prop :=
  ∃ fuel con', parseError more fuel buf con = some (.err (errorName e) (errorText e), con') ∧
    con'.seek = con.seek + (45 :: e ++ crlf).length

/-- No line is returned as an error without a store outside the two strings. -/
theorem redis_error_reply (more : RedisConnection → Option (Int × RedisConnection)) (buf : Nat)
    (con : RedisConnection) (e : Bytes) : ¬ RepliesError more buf con e := by
  rintro ⟨fuel, con', hrun, -⟩
  exact parseError_ne_err more fuel buf con con' _ _ hrun

/-- `"-E x"` in a buffer that holds it. -/
theorem redis_error_reply_x : ¬ RepliesError replyReadMore 0
    ⟨[45, 69, 32, 120, 13, 10, 0, 0], 0, 6, [], ⟨[], 0, 0⟩, []⟩ [69, 32, 120] := by
  rintro ⟨fuel, con', hrun, -⟩
  cases fuel with
  | zero => cases hrun
  | succ fuel => cases hrun

end EFramework
