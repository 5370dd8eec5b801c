import Mathlib.Data.List.Infix
import EFramework.Redis.Model

/-! # Commands

`ef_redis_cmd` formats a command into a local block and sends it by one write. A server
that gets a line which is no array reads it as an inline command: the words between its
spaces are the arguments.
-/

namespace EFramework

open Lib

/-! ## Model -/

def sizeofCmd : Nat := 1024

/-- The text that a format with conversions `%s` stands for. -/
def formatted : Bytes → List Bytes → Bytes
  | 37 :: 115 :: fmt, arg :: args => arg ++ formatted fmt args
  | c :: fmt, args => c :: formatted fmt args
  | [], _ => []

def vsprintf (mem fmt : Bytes) (args : List Bytes) : Option (Int × Bytes) := do
  let mem ← strcpy mem 0 (formatted fmt args)
  some ((formatted fmt args).length, mem)

/-- `cmd` is the local block as the call finds it. -/
def efRedisCmd (fmt : Bytes) (args : List Bytes) (cmd : Bytes) (snk : Sink) :
    Option (Int × Sink) := do
  let (cmdlen, cmd) ← vsprintf cmd fmt args
  if cmdlen < 0 then some (cmdlen, snk)
  else do
    let cmd ← strcat cmd 0 crlf
    let (res, _, snk) := efWrapWrite (cmd.take (cmdlen + 2).toNat) snk
    some (res, snk)

def getFormat : Bytes := [71, 69, 84, 32, 37, 115]

def efRedisGet (fuel : Nat) (key cmd : Bytes) (snk : Sink) (con : RedisConnection) :
    Option (RedisReply × RedisConnection × Sink) := do
  let (res, snk) ← efRedisCmd getFormat [key] cmd snk
  if res < 0 then some (.nil, con, snk)
  else do
    let (rep, con) ← efRedisReadReply fuel con
    some (rep, con, snk)

/-! ## Inline commands -/

/-- The bytes before the first CRLF, which is the end. -/
def inlineLine : Bytes → Option Bytes
  | [] => none
  | c :: bs =>
      if crlf <+: c :: bs then if bs = [10] then some [] else none
      else (inlineLine bs).map (c :: ·)

def inlineWords (line : Bytes) : List Bytes := (line.splitOn 32).filter (fun w => !w.isEmpty)

/-- The arguments of a command that is one line. -/
def inlineCommand (bytes : Bytes) : Option (List Bytes) := (inlineLine bytes).map inlineWords

theorem inlineLine_some {bytes line : Bytes} (h : inlineLine bytes = some line) :
    bytes = line ++ crlf := by
  induction bytes generalizing line with
  | nil => cases h
  | cons c bs ih =>
      rw [inlineLine] at h
      split at h
      next hcrlf =>
        split at h
        next hend =>
          cases h
          rw [hend] at hcrlf ⊢
          exact (hcrlf.eq_of_length rfl).symm
        next => cases h
      next =>
        obtain ⟨line, hline, rfl⟩ := Option.map_eq_some_iff.mp h
        rw [ih hline, List.cons_append]

theorem inlineLine_append (line : Bytes) :
    inlineLine (line ++ crlf) = if crlf <:+: line then none else some line := by
  induction line with
  | nil => decide
  | cons c line ih =>
      rw [List.cons_append, inlineLine]
      by_cases hcrlf : crlf <+: c :: line
      · have hlong : line ++ crlf ≠ [10] := by
          intro h
          have := congrArg List.length h
          simp [crlf] at this
        have hcrlf' : crlf <+: c :: (line ++ crlf) :=
          hcrlf.trans (List.prefix_append (c :: line) crlf)
        rw [if_pos hcrlf', if_neg hlong, if_pos hcrlf.isInfix]
      · have hcrlf' : ¬ crlf <+: c :: (line ++ crlf) := by
          rintro ⟨rest, h⟩
          cases line with
          | nil => simp [crlf] at h
          | cons d line =>
              refine hcrlf ⟨line, ?_⟩
              simp only [crlf, List.cons_append, List.nil_append, List.cons.injEq] at h ⊢
              exact ⟨h.1, h.2.1, trivial⟩
        rw [if_neg hcrlf', ih]
        by_cases hmid : crlf <:+: line
        · rw [if_pos hmid, if_pos (hmid.trans (List.suffix_cons c line).isInfix), Option.map_none]
        · rw [if_neg hmid, if_neg, Option.map_some]
          rw [List.infix_cons_iff]
          rintro (h | h)
          · exact hcrlf h
          · exact hmid h

theorem intercalate_length (ws : List Bytes) :
    ws.flatten.length + ws.length ≤ ([(32 : UInt8)].intercalate ws).length + 1 := by
  induction ws with
  | nil => simp
  | cons w ws ih =>
      cases ws with
      | nil => simp
      | cons w' ws =>
          rw [List.intercalate_cons_cons]
          simp only [List.flatten_cons, List.length_append, List.length_cons,
            List.length_nil] at ih ⊢
          omega

theorem inlineWords_length (line : Bytes) :
    (inlineWords line).flatten.length ≤ line.length ∧
      (inlineWords line).flatten.length + (inlineWords line).length ≤ line.length + 1 := by
  have hsplit := intercalate_length (line.splitOn 32)
  rw [List.intercalate_splitOn] at hsplit
  have hsome : 0 < (line.splitOn 32).length := List.length_pos_iff.mpr (List.splitOn_ne_nil 32 line)
  have hwords : (inlineWords line).length ≤ (line.splitOn 32).length := List.length_filter_le _ _
  have hflat : (inlineWords line).flatten = (line.splitOn 32).flatten :=
    List.flatten_filter_not_isEmpty
  rw [hflat]
  omega

theorem inlineWords_append (l r : Bytes) :
    inlineWords (l ++ 32 :: r) = inlineWords l ++ inlineWords r := by
  rw [inlineWords, List.splitOn_append_cons_self, List.filter_append]
  rfl

theorem inlineWords_eq_self {key : Bytes} :
    inlineWords key = [key] ↔ key ≠ [] ∧ 32 ∉ key := by
  constructor
  · intro h
    constructor
    · rintro rfl
      exact absurd h (by decide)
    · intro hmem
      obtain ⟨l, r, hkey⟩ := List.append_of_mem hmem
      obtain ⟨hl, -⟩ := inlineWords_length l
      obtain ⟨hr, -⟩ := inlineWords_length r
      rw [hkey, inlineWords_append] at h
      have hflat := congrArg (fun ws => ws.flatten.length) h
      simp only [List.flatten_append, List.length_append, List.flatten_singleton,
        List.length_cons] at hflat
      omega
  · rintro ⟨hne, hspace⟩
    rw [inlineWords, List.splitOn_eq_singleton hspace]
    simp [hne]

/-! ## The command of a key -/

def getName : Bytes := [71, 69, 84]

def getCommand (key : Bytes) : Bytes := getName ++ 32 :: key ++ crlf

theorem length_getCommand (key : Bytes) : (getCommand key).length = key.length + 6 := by
  simp [getCommand, getName, crlf]

theorem crlf_infix_get {key : Bytes} : crlf <:+: getName ++ 32 :: key ↔ crlf <:+: key := by
  simp [getName, crlf, List.infix_cons_iff]

theorem inlineCommand_get (key : Bytes) :
    inlineCommand (getCommand key) = some [getName, key] ↔
      key ≠ [] ∧ 32 ∉ key ∧ ¬ crlf <:+: key := by
  rw [inlineCommand, getCommand, inlineLine_append]
  by_cases hcrlf : crlf <:+: key
  · rw [if_pos (crlf_infix_get.mpr hcrlf)]
    exact iff_of_false nofun (fun h => h.2.2 hcrlf)
  · have hname : inlineWords getName = [getName] := by decide
    rw [if_neg (fun h => hcrlf (crlf_infix_get.mp h)), Option.map_some, inlineWords_append, hname,
      List.singleton_append, Option.some.injEq, List.cons.injEq, inlineWords_eq_self]
    exact ⟨fun h => ⟨h.2.1, h.2.2, hcrlf⟩, fun h => ⟨rfl, h.1, h.2.1⟩⟩

/-- The name, the key and a space between them do not come in fewer bytes. -/
theorem length_of_inlineCommand {bytes key : Bytes}
    (h : inlineCommand bytes = some [getName, key]) : key.length + 6 ≤ bytes.length := by
  obtain ⟨line, hline, hwords⟩ := Option.map_eq_some_iff.mp h
  obtain ⟨-, hlen⟩ := inlineWords_length line
  rw [hwords] at hlen
  rw [inlineLine_some hline]
  simp only [getName, crlf, List.flatten_cons, List.flatten_nil, List.length_append,
    List.length_cons, List.length_nil] at hlen ⊢
  omega

theorem inlineCommand_take (key : Bytes) (limit : Nat) :
    inlineCommand ((getCommand key).take limit) = some [getName, key] ↔
      key.length + 6 ≤ limit ∧ key ≠ [] ∧ 32 ∉ key ∧ ¬ crlf <:+: key := by
  by_cases hlimit : key.length + 6 ≤ limit
  · rw [List.take_of_length_le (by rw [length_getCommand]; exact hlimit), inlineCommand_get]
    exact ⟨fun h => ⟨hlimit, h⟩, fun h => h.2⟩
  · refine iff_of_false (fun h => hlimit ?_) (fun h => hlimit h.1)
    have hlen := length_of_inlineCommand h
    rw [List.length_take] at hlen
    omega

theorem formatted_get (key : Bytes) : formatted getFormat [key] = getName ++ 32 :: key := by
  simp [formatted, getFormat, getName]

theorem efRedisCmd_get {key : Bytes} (hkey : 0 ∉ key) {cmd : Bytes}
    (hcmd : cmd.length = sizeofCmd) (snk : Sink) :
    efRedisCmd getFormat [key] cmd snk =
      if key.length + 6 < sizeofCmd then
        some ((efWrapWrite (getCommand key) snk).1, (efWrapWrite (getCommand key) snk).2.2)
      else none := by
  have htext : (0 : UInt8) ∉ getName ++ 32 :: key := by
    simp [getName, hkey]
  have hlen : (getName ++ 32 :: key).length = key.length + 4 := by
    simp [getName]
  have hcrlf : crlf.length = 2 := rfl
  have hcommand : getName ++ 32 :: key ++ crlf = getCommand key := rfl
  unfold efRedisCmd vsprintf
  rw [formatted_get, strcpy, storeAt_start, List.length_append, List.length_singleton, hcmd, hlen]
  by_cases hfits : key.length + 4 + 1 ≤ sizeofCmd
  · have hcat := strcat_text htext (cmd.drop (key.length + 4 + 1)) crlf
    rw [hcommand, List.length_drop, hcmd, hcrlf] at hcat
    rw [if_pos hfits, List.append_assoc, List.singleton_append]
    simp only [Option.bind_eq_bind, Option.bind_some,
      if_neg (Int.not_lt.mpr (Int.natCast_nonneg _))]
    rw [hcat]
    by_cases hroom : key.length + 6 < sizeofCmd
    · have hsent : ((key.length + 4 : Nat) + 2 : Int).toNat = (getCommand key).length := by
        rw [length_getCommand]
        omega
      rw [if_pos hroom, if_pos (by omega), Option.bind_some, hsent, List.take_left]
    · rw [if_neg hroom, if_neg (by omega), Option.bind_none]
  · rw [if_neg hfits, if_neg (by omega)]
    rfl

/-! ## Integrity -/

/-- The bytes that a write has taken are the command with this key. -/
def KeySent (key : Bytes) (snk snk' : Sink) : Prop :=
  ∃ sent, snk'.accepted = snk.accepted ++ sent ∧ inlineCommand sent = some [getName, key]

/-- The call stays in its block, and does not report success without the command being sent. -/
def CommandIntact (key cmd : Bytes) (snk : Sink) : Prop :=
  ∃ res snk', efRedisCmd getFormat [key] cmd snk = some (res, snk') ∧
    (0 ≤ res → KeySent key snk snk')

def Sink.Refuses (snk : Sink) : Prop := ∃ errno events, snk.events = .fail errno :: events

def Sink.Takes (snk : Sink) (n : Nat) : Prop :=
  ∀ limit events, snk.events = .accept limit :: events → n ≤ limit

def OneWord (key : Bytes) : Prop := key ≠ [] ∧ 32 ∉ key ∧ ¬ crlf <:+: key

theorem keySent_append {key sent : Bytes} {snk : Sink} {events : List SinkEvent} :
    KeySent key snk ⟨snk.accepted ++ sent, events⟩ ↔
      inlineCommand sent = some [getName, key] := by
  constructor
  · rintro ⟨sent', hsent, h⟩
    rwa [List.append_cancel_left hsent]
  · exact fun h => ⟨sent, rfl, h⟩

/-- What one write makes of a command. -/
theorem keySent_write (key : Bytes) (snk : Sink) :
    (0 ≤ (efWrapWrite (getCommand key) snk).1 →
        KeySent key snk (efWrapWrite (getCommand key) snk).2.2) ↔
      snk.Refuses ∨ (snk.Takes (key.length + 6) ∧ OneWord key) := by
  obtain ⟨accepted, events⟩ := snk
  unfold Sink.Refuses Sink.Takes OneWord
  rcases events with _ | ⟨limit | errno, events⟩
  · have hsent := @keySent_append key (getCommand key) ⟨accepted, []⟩ []
    simp only [efWrapWrite, Int.natCast_nonneg, true_imp_iff]
    rw [hsent, inlineCommand_get]
    simp
  · have hsent := @keySent_append key ((getCommand key).take limit)
      ⟨accepted, .accept limit :: events⟩ events
    simp only [efWrapWrite, Int.natCast_nonneg, true_imp_iff]
    rw [hsent, inlineCommand_take]
    simp
  · refine iff_of_true (fun h => ?_) (Or.inl ⟨errno, events, rfl⟩)
    exact absurd h (by decide : ¬ (0 : Int) ≤ -1)

/-- When a key is sent: there is room for the command and its NUL in the block, and the write
fails, or it takes the whole command and the key is one word. -/
def Sendable (key : Bytes) (snk : Sink) : Prop :=
  key.length + 6 < sizeofCmd ∧
    (snk.Refuses ∨ (snk.Takes (key.length + 6) ∧ OneWord key))

/-- `ef_redis_cmd` keeps to its block and does not report success for anything but the command with
the key exactly if the key can be sent, and so does `ef_redis_get`. -/
theorem redis_command_integrity {key : Bytes} (hkey : 0 ∉ key) {cmd : Bytes}
    (hcmd : cmd.length = sizeofCmd) (snk : Sink) :
    (CommandIntact key cmd snk ↔ Sendable key snk) ∧
      (Sendable key snk → ∀ fuel con rep con' snk',
        efRedisGet fuel key cmd snk con = some (rep, con', snk') → rep ≠ .nil →
          KeySent key snk snk') := by
  have hsend := efRedisCmd_get hkey hcmd snk
  constructor
  · unfold CommandIntact Sendable
    rw [hsend, ← keySent_write]
    by_cases hroom : key.length + 6 < sizeofCmd
    · rw [if_pos hroom]
      constructor
      · rintro ⟨res, snk', he, h⟩
        cases he
        exact ⟨hroom, h⟩
      · rintro ⟨-, h⟩
        exact ⟨_, _, rfl, h⟩
    · rw [if_neg hroom]
      refine iff_of_false ?_ (fun h => hroom h.1)
      rintro ⟨res, snk', he, -⟩
      cases he
  · rintro ⟨hroom, h⟩ fuel con rep con' snk' he hrep
    rw [← keySent_write] at h
    rw [if_pos hroom] at hsend
    unfold efRedisGet at he
    rw [hsend, Option.bind_eq_bind, Option.bind_some] at he
    dsimp only at he
    split at he
    next hfails =>
      cases he
      exact absurd rfl hrep
    next hfails =>
      obtain ⟨⟨rep₁, con₁⟩, -, he⟩ := Option.bind_eq_some_iff.mp he
      cases he
      exact h (Int.not_lt.mp hfails)

/-- The key `"ab"` and a socket that takes everything. -/
theorem redis_command_integrity_ab :
    CommandIntact [97, 98] (List.replicate sizeofCmd 0) ⟨[], []⟩ :=
  (redis_command_integrity (by decide) List.length_replicate _).1.mpr
    ⟨by decide, Or.inr ⟨nofun, by decide, by decide, by decide⟩⟩

/-- A key with a space is two arguments of a command that succeeds. -/
theorem redis_command_integrity_space :
    ¬ CommandIntact [97, 32, 98] (List.replicate sizeofCmd 0) ⟨[], []⟩ := by
  rintro ⟨res, snk', he, h⟩
  rw [efRedisCmd_get (by decide) List.length_replicate, if_pos (by decide)] at he
  cases he
  obtain ⟨sent, hsent, hargs⟩ := h (by decide)
  rw [← List.nil_append sent, ← show _ = ([] : Bytes) ++ sent from hsent] at hargs
  exact absurd hargs (by decide)

end EFramework
