import EFramework.Lib.Refines
import EFramework.Redis.Errors
import EFramework.Redis.Freeing

/-! # Who owns the blocks of a reply

The parsers with pointers: where they put what the parsers of the model return. They read the
same, and a reply that is returned lies in blocks that have been allocated for it, each of which
is in one place.
-/

namespace EFramework

open Lib (CString.skip BlockHeap rel_bind rel_ite rel_same)

structure ReplyMemory where
  con : RedisConnection
  heap : ReplyHeap

namespace ReplyMemory

def malloc (m : ReplyMemory) (size : Nat) : Nat × ReplyMemory :=
  let (ok, con) := m.con.malloc size
  if ok then (m.heap.next, ⟨con, m.heap.alloc .raw⟩) else (0, ⟨con, m.heap⟩)

def store (m : ReplyMemory) (p : Nat) (b : ReplyBlock) : ReplyMemory :=
  { m with heap := m.heap.store p b }

def free (m : ReplyMemory) (p : Nat) : Option ReplyMemory := do
  some { m with heap := ← m.heap.free p }

def returning (out : Option (Nat × ReplyMemory)) : Option (Nat × ReplyMemory) :=
  out.map (fun r => (r.1, { r.2 with con := r.2.con.mark }))

/-! ## Parsers -/

section Parsers

variable (more : RedisConnection → Option (Int × RedisConnection))

def parseLong (fuel buf : Nat) (m : ReplyMemory) : Option (Nat × ReplyMemory) :=
  returning do
    let (rep, m) := m.malloc sizeofReply
    if rep ≠ 0 then do
      let m := m.store rep (.reply replyTypeLong none)
      match ← awaitLine more fuel buf m.con with
      | (none, con) => do
          let m ← { m with con := con }.free rep
          some (0, m)
      | (some (buf, _), con) => do
          let (n, k) ← scanDigits longStep (con.text (buf + 1)) 0
          let m := { m with con := { con with seek := con.seek + (k + 1) + 2 } }
          some (rep, m.store rep (.reply replyTypeLong (some (.d n))))
    else some (0, m)

def storeString (m : ReplyMemory) (rep str content : Nat) (bytes : Bytes) (strlen : Nat) :
    ReplyMemory :=
  ((m.store content (.bytes bytes)).store str (.string content (toInt32 strlen))).store rep
    (.reply replyTypeStr (some (.str str)))

/-- What is in `content` before all has been received is not kept. -/
def parseString (fuel buf strlen : Nat) (m : ReplyMemory) : Option (Nat × ReplyMemory) :=
  returning do
    let (rep, m) := m.malloc sizeofReply
    if rep ≠ 0 then
      if strlen = sizeT (-1) then some (rep, m.store rep (.reply replyTypeNull none))
      else do
        let m := m.store rep (.reply replyTypeStr none)
        let (str, m) := m.malloc sizeofReply
        if str ≠ 0 then do
          let (content, m) := m.malloc strlen
          if content ≠ 0 then
            if m.con.pending < strlen then do
              let bytes ← strncpyBytes (m.con.text buf) m.con.pending
              let (bytes, con) ← copyRest more strlen fuel bytes
                { m.con with seek := m.con.seek + m.con.pending }
              match bytes with
              | none => some (0, { m with con := con })
              | some bytes =>
                  some (rep, { m with con := con }.storeString rep str content bytes strlen)
            else do
              let bytes ← strncpyBytes (m.con.text buf) strlen
              let m := { m with con := { m.con with seek := m.con.seek + strlen + 2 } }
              some (rep, m.storeString rep str content bytes strlen)
          else do
            let m ← m.free rep
            some (0, m)
        else some (0, m)
    else some (0, m)

def parseSingleString (fuel buf : Nat) (m : ReplyMemory) : Option (Nat × ReplyMemory) :=
  returning do
    match ← awaitLine more fuel (buf + 1) { m.con with seek := m.con.seek + 1 } with
    | (none, con) => some (0, { m with con := con })
    | (some (buf, k), con) => parseString more fuel buf k { m with con := con }

def parseBulkString (fuel buf : Nat) (m : ReplyMemory) : Option (Nat × ReplyMemory) :=
  returning do
    match ← awaitLine more fuel buf m.con with
    | (none, con) => some (0, { m with con := con })
    | (some (buf, k), con) => do
        let strlen ← parseLen (con.text buf)
        parseString more fuel (buf + k + 2) (sizeT strlen)
          { m with con := { con with seek := con.seek + (k + 2) } }

def parseElem (fuel : Nat) (parseArray : Nat → ReplyMemory → Option (Nat × ReplyMemory))
    (c : UInt8) (buf : Nat) (m : ReplyMemory) : Option (Nat × ReplyMemory) :=
  if c = 36 then parseBulkString more fuel buf m
  else if c = 58 then parseLong more fuel buf m
  else parseArray buf m

/-- The pointers that the loop of `parse_array` stores. -/
def parseElems (fuel : Nat) (parseArray : Nat → ReplyMemory → Option (Nat × ReplyMemory)) :
    Nat → Nat → ReplyMemory → Option (List (Option Nat) × ReplyMemory)
  | 0, _, m => some ([], m)
  | num + 1, buf, m => do
      let c ← m.con.buf[buf]?
      if c = 36 ∨ c = 58 ∨ c = 42 then do
        let (rep, m) ← parseElem more fuel parseArray c buf m
        let (reps, m) ← parseElems fuel parseArray num m.con.seek m
        some (some rep :: reps, m)
      else do
        let (reps, m) ← parseElems fuel parseArray num buf m
        some (none :: reps, m)

def parseArray : Nat → Nat → ReplyMemory → Option (Nat × ReplyMemory)
  | 0, _, _ => none
  | fuel + 1, buf, m => returning do
      let (rep, m) := m.malloc sizeofReply
      if rep ≠ 0 then do
        let m := m.store rep (.reply replyTypeArr none)
        match ← strstr (m.con.text buf) crlf with
        | none => do
            let con ← readUntilError more fuel m.con
            let m ← { m with con := con }.free rep
            some (0, m)
        | some k => do
            let repnum ← parseLen (m.con.text buf)
            let m := { m with con := { m.con with seek := m.con.seek + (k + 2) } }
            let (arr, m) := m.malloc sizeofReply
            let m := m.store rep (.reply replyTypeArr (some (.arr arr)))
            if arr ≠ 0 then do
              let m := m.store arr (.array (sizeT repnum) none)
              if repnum = -1 then
                some (rep, m.store rep (.reply replyTypeNull (some (.arr arr))))
              else do
                let (elem, m) := m.malloc (sizeT (sizeT repnum * 8))
                let m := m.store arr (.array (sizeT repnum) (some elem))
                if elem ≠ 0 then do
                  let (ps, m) ← parseElems more fuel (parseArray fuel) repnum.toNat (buf + k + 2) m
                  some (rep, m.store elem (.elems ps))
                else some (0, m)
            else some (0, m)
      else some (0, m)

def parseError (fuel buf : Nat) (m : ReplyMemory) : Option (Nat × ReplyMemory) :=
  returning do
    let (rep, m) := m.malloc sizeofReply
    if rep ≠ 0 then do
      let m := m.store rep (.reply replyTypeErr none)
      match ← awaitLine more fuel buf m.con with
      | (none, con) => do
          let m ← { m with con := con }.free rep
          some (0, m)
      | (some (buf, stop), con) => do
          let (err, m) := { m with con := con }.malloc sizeofReply
          if err ≠ 0 then do
            match ← strstr (m.con.text buf) [32] with
            | none => none
            | some pos => do
                let (type, m) := m.malloc (sizeT ((pos : Int) - 1))
                let typeBytes ← errorType (decide (type ≠ 0)) (m.con.text (buf + 1)) (pos - 1)
                let spaces ← CString.skip 32 (m.con.text (buf + pos + 1))
                let len := (stop : Int) - (pos + 1 + spaces : Nat)
                let (errinfo, m) := m.malloc (sizeT len)
                if errinfo ≠ 0 then do
                  let errBytes ← endedCopy (m.con.text (buf + pos + 1 + spaces)) (sizeT len)
                  let m := if type ≠ 0 then m.store type (.bytes typeBytes) else m
                  let m := (m.store errinfo (.bytes errBytes)).store err (.error type errinfo)
                  some (rep, m.store rep (.reply replyTypeErr (some (.err err))))
                else none
          else some (0, m)
    else some (0, m)

def parseReply (fuel : Nat) (m : ReplyMemory) : Option (Nat × ReplyMemory) := do
  let c ← m.con.buf[0]?
  if c = 45 then parseError more fuel 0 m
  else if c = 43 then parseSingleString more fuel 0 m
  else if c = 58 then parseLong more fuel 0 m
  else if c = 42 then parseArray more fuel 0 m
  else if c = 36 then parseBulkString more fuel 0 m
  else some (0, m)

end Parsers

def efRedisReadReply (fuel : Nat) (m : ReplyMemory) : Option (Nat × ReplyMemory) :=
  let (r, _, bytes, src) := efWrapRead (min m.con.buf.length maxTransfer) m.con.src
  if r < 0 then some (0, { m with con := { m.con with src := src } })
  else
    let con := { m.con with
      buf := writeAt m.con.buf 0 bytes, seek := 0, stop := bytes.length, src := src }
    parseReply replyReadMore fuel { m with con := con }

end ReplyMemory

mutual

/-- No element is NULL, since a read or an allocation has failed. -/
def RedisReply.whole : RedisReply → Bool
  | .nil => false
  | .arr _ elem => RedisReply.wholeIn elem
  | .unset | .null | .long _ | .str _ _ | .err _ _ => true

def RedisReply.wholeIn : List RedisReply → Bool
  | [] => true
  | r :: rs => r.whole && RedisReply.wholeIn rs

end

namespace ReplyMemory

/-- The block of a null array, which nothing leads to once the reply has been given back. -/
def Lost (h : ReplyHeap) (q : Nat) : Prop := h.blocks q = some (.array (sizeT (-1)) none)

/-- Some blocks have been allocated since, each once, and nothing else but what is lost. -/
structure Owns (h h' : ReplyHeap) (bs : List Nat) (whole : Bool) : Prop where
  nodup : bs.Nodup
  new : ∀ q ∈ bs, h.next ≤ q ∧ q < h'.next
  lost : whole = true → ∀ q, h.next ≤ q → h'.blocks q ≠ none → q ∉ bs → Lost h' q

def Built (h : ReplyHeap) (r : RedisReply) (p : Option Nat) (h' : ReplyHeap) : Prop :=
  h.Grown h' ∧ ∃ bs, r.At h'.blocks p bs ∧ Owns h h' bs r.whole

/-- The two parsers return, the one a reply, and the other a pointer to it. -/
def Answers (h : ReplyHeap) (r : RedisReply × RedisConnection) (r' : Nat × ReplyMemory) : Prop :=
  r'.2.con = r.2 ∧ Built h r.1 (some r'.1) r'.2.heap

def BuiltAll (h : ReplyHeap) (rs : List RedisReply) (ps : List (Option Nat)) (h' : ReplyHeap) :
    Prop :=
  h.Grown h' ∧ ∃ bs, RedisReply.AllAt h'.blocks rs ps bs ∧ Owns h h' bs (RedisReply.wholeIn rs)

def AnswersAll (h : ReplyHeap) (num : Nat) (r : List RedisReply × RedisConnection)
    (r' : List (Option Nat) × ReplyMemory) : Prop :=
  r.1.length = num ∧ r'.2.con = r.2 ∧ BuiltAll h r.1 r'.1 r'.2.heap

/-! ## Answers -/

variable {h h' : ReplyHeap} {m : ReplyMemory} {con : RedisConnection} {size p q : Nat}

theorem rel_returning {x : Option (RedisReply × RedisConnection)} {y : Option (Nat × ReplyMemory)}
    (hxy : Option.Rel (Answers h) x y) :
    Option.Rel (Answers h) (EFramework.returning x) (returning y) := by
  cases hxy with
  | none => exact .none
  | some ha => exact .some ⟨congrArg RedisConnection.mark ha.1, ha.2⟩

theorem malloc_refused (hm : m.con.malloc size = (false, con)) :
    m.malloc size = (0, ⟨con, m.heap⟩) := by
  unfold malloc
  rw [hm]
  rfl

theorem malloc_ok (hm : m.con.malloc size = (true, con)) :
    m.malloc size = (m.heap.next, ⟨con, m.heap.alloc .raw⟩) := by
  unfold malloc
  rw [hm]
  rfl

theorem rel_nil (con : RedisConnection) (hg : h.Grown h') :
    Option.Rel (Answers h) (some (.nil, con)) (some (0, ⟨con, h'⟩)) :=
  .some ⟨rfl, hg, [], ⟨rfl, rfl⟩, List.nodup_nil, by simp, fun hw => by cases hw⟩

/-! ## Sizes -/

theorem asInt_range {n r : Int} (h : Lib.asInt n = some r) : -2 ^ 31 ≤ r ∧ r < 2 ^ 31 := by
  unfold Lib.asInt at h
  split at h
  next hn => exact Option.some.inj h ▸ hn
  next => cases h

theorem scanDigits_range {text : Bytes} {n : Int} {r : Int × Nat}
    (hn : -2 ^ 31 ≤ n ∧ n < 2 ^ 31) (h : scanDigits lenStep text n = some r) :
    -2 ^ 31 ≤ r.1 ∧ r.1 < 2 ^ 31 := by
  induction text generalizing n r with
  | nil => cases h
  | cons c text ih =>
      rw [scanDigits] at h
      split at h
      next => exact Option.some.inj h ▸ hn
      next =>
        obtain ⟨n', hstep, hrest⟩ := Option.bind_eq_some_iff.mp h
        obtain ⟨r', hscan, hr⟩ := Option.bind_eq_some_iff.mp hrest
        obtain ⟨_, -, hn'⟩ := Option.bind_eq_some_iff.mp hstep
        obtain rfl := Option.some.inj hr
        have hr' := ih (asInt_range hn') hscan
        exact hr'

theorem parseLen_range {text : Bytes} {n : Int} (h : parseLen text = some n) :
    -2 ^ 31 ≤ n ∧ n < 2 ^ 31 := by
  unfold parseLen at h
  obtain ⟨c, -, h⟩ := Option.bind_eq_some_iff.mp h
  split at h
  next => exact Option.some.inj h ▸ (by decide)
  next =>
    obtain ⟨d, -, h⟩ := Option.bind_eq_some_iff.mp h
    split at h
    next => exact Option.some.inj h ▸ (by decide)
    next =>
      obtain ⟨r, hscan, hr⟩ := Option.bind_eq_some_iff.mp h
      exact Option.some.inj hr ▸ scanDigits_range (by decide) hscan

/-- No block is larger than `PTRDIFF_MAX`. -/
theorem malloc_size (hm : m.con.malloc size = (true, con)) : size < 2 ^ 63 := by
  have hfits := congrArg Prod.fst hm
  have := (Bool.and_eq_true _ _).mp hfits
  exact of_decide_eq_true this.2

/-- A negative number of elements is refused. -/
theorem repnum_size {repnum : Int} (hrange : -2 ^ 31 ≤ repnum ∧ repnum < 2 ^ 31)
    (hsize : sizeT (sizeT repnum * 8) < 2 ^ 63) :
    sizeT repnum = repnum.toNat ∧ repnum.toNat < 2 ^ 31 := by
  unfold sizeT at hsize ⊢
  omega

/-! ## Blocks of a reply -/

/-- What is allocated and not owned has been lost. -/
theorem owns_new {bs : List Nat} {whole : Bool} (hg : h.Grown h') (hnodup : bs.Nodup)
    (hmem : ∀ q, q ∈ bs ↔ h.next ≤ q ∧ q < h'.next) : Owns h h' bs whole where
  nodup := hnodup
  new q hq := (hmem q).mp hq
  lost _ q hq hused hnot := absurd ((hmem q).mpr ⟨hq, hg.lt_next hused⟩) hnot

theorem built_one {r : RedisReply} (hg : h.Grown h') (hnext : h'.next = h.next + 1)
    (hat : r.At h'.blocks (some h.next) [h.next]) : Built h r (some h.next) h' := by
  refine ⟨hg, [h.next], hat, owns_new hg (by simp) (fun q => ?_)⟩
  rw [List.mem_singleton]
  omega

theorem built_three {r : RedisReply} (hg : h.Grown h') (hnext : h'.next = h.next + 3)
    (hat : r.At h'.blocks (some h.next) [h.next + 2, h.next + 1, h.next]) :
    Built h r (some h.next) h' := by
  refine ⟨hg, [h.next + 2, h.next + 1, h.next], hat, owns_new hg (by simp) (fun q => ?_)⟩
  simp only [List.mem_cons, List.not_mem_nil, or_false]
  omega

theorem free_reply {b : ReplyBlock} (hs : h.Sound) (hg : h.Grown h')
    (hp : h'.blocks h.next = some b) (con : RedisConnection) :
    ReplyMemory.free ⟨con, h'⟩ h.next = some ⟨con, h'.without [h.next]⟩ ∧
      h.Grown (h'.without [h.next]) := by
  have hnull := (hs.of_grown hg).null
  refine ⟨?_, hg.without (by simp)⟩
  unfold ReplyMemory.free
  rw [BlockHeap.free_block hnull hp]
  rfl

theorem Owns.append {h₁ h₂ : ReplyHeap} {bs₁ bs₂ : List Nat} {w₁ w₂ : Bool} (hg₁ : h.Grown h₁)
    (hg₂ : h₁.Grown h₂) (ho₁ : Owns h h₁ bs₁ w₁) (ho₂ : Owns h₁ h₂ bs₂ w₂) :
    Owns h h₂ (bs₁ ++ bs₂) (w₁ && w₂) where
  nodup := by
    refine List.nodup_append.mpr ⟨ho₁.nodup, ho₂.nodup, ?_⟩
    rintro q hq₁ _ hq₂ rfl
    exact absurd (ho₁.new q hq₁).2 (Nat.not_lt.mpr (ho₂.new q hq₂).1)
  new q hq := by
    rcases List.mem_append.mp hq with hq | hq
    · exact ⟨(ho₁.new q hq).1, Nat.lt_of_lt_of_le (ho₁.new q hq).2 hg₂.next⟩
    · exact ⟨Nat.le_trans hg₁.next (ho₂.new q hq).1, (ho₂.new q hq).2⟩
  lost hw q hq hused hnot := by
    obtain ⟨hw₁, hw₂⟩ := (Bool.and_eq_true _ _).mp hw
    rw [List.mem_append, not_or] at hnot
    rcases Nat.lt_or_ge q h₁.next with hlt | hge
    · have hkept := hg₂.kept q hlt
      exact hkept.trans (ho₁.lost hw₁ q hq (hkept ▸ hused) hnot.1)
    · exact ho₂.lost hw₂ q hge hused hnot.2

theorem built_unset (hs : h.Sound) : Built h .unset none h :=
  ⟨hs.grown, [], ⟨rfl, rfl⟩, List.nodup_nil, by simp,
    fun _ q hq hused => absurd (hs.beyond q hq) hused⟩

theorem Built.cons {h₁ h₂ : ReplyHeap} {r : RedisReply} {rs : List RedisReply} {p : Option Nat}
    {ps : List (Option Nat)} (hr : Built h r p h₁) (hrs : BuiltAll h₁ rs ps h₂) :
    BuiltAll h (r :: rs) (p :: ps) h₂ := by
  obtain ⟨hg₁, bs₁, hat, ho₁⟩ := hr
  obtain ⟨hg₂, bs₂, hall, ho₂⟩ := hrs
  refine ⟨hg₁.trans hg₂, bs₁ ++ bs₂, ?_, ho₁.append hg₁ hg₂ ho₂⟩
  exact ⟨p, ps, bs₁, bs₂, rfl, RedisReply.At.congr r hat (fun q hq => hg₂.kept q (ho₁.new q hq).2),
    hall, rfl⟩

/-- The reply and the array of `parse_array`. -/
def headed (h : ReplyHeap) (rep num : Nat) : ReplyHeap :=
  ((h.alloc .raw).store rep (.reply replyTypeArr (some (.arr h.next)))).store h.next
    (.array num none)

theorem headed_grown (hg : h.Grown h') (hnext : h'.next = h.next + 1) (num : Nat) :
    h.Grown (headed h' h.next num) := by
  have hend : (h'.alloc .raw).next = h.next + 2 := congrArg (· + 1) hnext
  refine ((hg.alloc .raw).store (Nat.le_refl _) ?_ _).store ?_ ?_ _
  · omega
  · omega
  · exact Nat.lt_succ_self _

theorem built_null_array {num : Nat} (hg : h.Grown h') (hnext : h'.next = h.next + 1)
    (hnum : num = sizeT (-1)) :
    Built h .null (some h.next)
      ((headed h' h.next num).store h.next (.reply replyTypeNull (some (.arr h'.next)))) := by
  have hend : (headed h' h.next num).next = h.next + 2 := congrArg (· + 1) hnext
  refine ⟨(headed_grown hg hnext num).store (Nat.le_refl _) ?_ _, [h.next], ?_, ?_, ?_, ?_⟩
  · omega
  · exact ⟨_, _, rfl, Function.update_self _ _ _, rfl⟩
  · exact by simp
  · intro q hq
    rw [List.mem_singleton.mp hq]
    exact ⟨Nat.le_refl _, hend.symm ▸ (by omega)⟩
  · intro _ q hq hused hnot
    rw [List.mem_singleton] at hnot
    have hlt : q < h.next + 2 := hend ▸ ((headed_grown hg hnext num).store (Nat.le_refl _)
      (by omega) _).lt_next hused
    obtain rfl : q = h'.next := by omega
    rw [hnum]
    exact (Function.update_of_ne (by omega) _ _).trans (Function.update_self _ _ _)

theorem built_arr {num : Nat} {rs : List RedisReply} {ps : List (Option Nat)} (hg : h.Grown h')
    (hnext : h'.next = h.next + 3)
    (hrep : h'.blocks h.next = some (.reply replyTypeArr (some (.arr (h.next + 1)))))
    (harr : h'.blocks (h.next + 1) = some (.array num (some (h.next + 2))))
    {h₁ : ReplyHeap} (hall : BuiltAll h' rs ps h₁) (hnum : num = rs.length) (hlt : num < 2 ^ 31) :
    Built h (.arr num rs) (some h.next) (h₁.store (h.next + 2) (.elems ps)) := by
  obtain ⟨hg₁, bs, hat, ho⟩ := hall
  have hle := hnext ▸ hg₁.next
  have hother : ∀ q, q ≠ h.next + 2 → (h₁.store (h.next + 2) (.elems ps)).blocks q = h₁.blocks q :=
    fun q hq => Function.update_of_ne hq _ _
  have hown : ∀ q ∈ bs, h.next + 3 ≤ q := fun q hq => hnext ▸ (ho.new q hq).1
  refine ⟨(hg.trans hg₁).store (by omega) (by omega) _, bs ++ [h.next + 2, h.next + 1, h.next],
    ⟨h.next, h.next + 1, ps, h.next + 2, bs, rfl, ?_, ?_, Function.update_self _ _ _, hnum, hlt,
      ?_, rfl⟩, ?_, ?_, ?_⟩
  · rw [hother _ (by omega), hg₁.kept _ (by omega), hrep]
  · rw [hother _ (by omega), hg₁.kept _ (by omega), harr]
  · exact RedisReply.AllAt.congr rs hat (fun q hq => hother q (by have := hown q hq; omega))
  · refine List.nodup_append.mpr ⟨ho.nodup, by simp, ?_⟩
    rintro q hq _ hq' rfl
    have := hown q hq
    simp only [List.mem_cons, List.not_mem_nil, or_false] at hq'
    omega
  · intro q hq
    rcases List.mem_append.mp hq with hq | hq
    · exact ⟨by have := hown q hq; omega, (ho.new q hq).2⟩
    · simp only [List.mem_cons, List.not_mem_nil, or_false] at hq
      exact ⟨by omega, Nat.lt_of_lt_of_le (by omega) hle⟩
  · intro hw q hq hused hnot
    simp only [List.mem_append, List.mem_cons, List.not_mem_nil, or_false, not_or] at hnot
    rw [hother q hnot.2.1] at hused
    exact (hother q hnot.2.1).trans (ho.lost hw q (by omega) hused hnot.1)

/-! ## Parsers -/

section

variable (more : RedisConnection → Option (Int × RedisConnection)) (fuel buf : Nat)

theorem rel_parseLong (hs : m.heap.Sound) :
    Option.Rel (Answers m.heap) (EFramework.parseLong more fuel buf m.con)
      (m.parseLong more fuel buf) := by
  unfold EFramework.parseLong parseLong
  refine rel_returning ?_
  rcases hm : m.con.malloc sizeofReply with ⟨_ | _, con⟩
  · rw [malloc_refused hm]
    exact rel_nil con hs.grown
  rw [malloc_ok hm]
  dsimp only
  rw [if_pos rfl, if_pos hs.pos.ne']
  have hg := (hs.grown.alloc .raw).store (Nat.le_refl _) (Nat.lt_succ_self _)
    (.reply replyTypeLong none)
  refine rel_same _ (fun line => ?_)
  rcases line with ⟨_ | ⟨buf, k⟩, con⟩
  · obtain ⟨hfree, hg'⟩ := free_reply hs hg (Function.update_self _ _ _) con
    dsimp only [store]
    rw [hfree]
    exact rel_nil con hg'
  · refine rel_same _ (fun r => ?_)
    refine .some ⟨rfl, built_one (hg.store (Nat.le_refl _) (Nat.lt_succ_self _) _) rfl ?_⟩
    exact ⟨_, rfl, Function.update_self _ _ _, rfl⟩

theorem built_string (hg : h.Grown h') (hnext : h'.next = h.next + 1) (bytes : Bytes)
    (strlen : Nat) (con : RedisConnection) :
    Built h (.str bytes (toInt32 strlen)) (some h.next)
      (ReplyMemory.storeString ⟨con, (h'.alloc .raw).alloc .raw⟩ h.next h'.next
        (h'.alloc .raw).next bytes strlen).heap := by
  have hend : ((h'.alloc .raw).alloc .raw).next = h.next + 3 := congrArg (· + 2) hnext
  have hcontent : (h'.alloc .raw).next = h.next + 2 := congrArg (· + 1) hnext
  rw [hnext, hcontent]
  refine built_three (((((hg.alloc .raw).alloc .raw).store ?_ ?_ _).store ?_ ?_ _).store ?_ ?_ _)
    hend ?_
  · omega
  · rw [hend]
    omega
  · omega
  · exact hend.symm ▸ (by omega)
  · omega
  · exact hend.symm ▸ (by omega)
  · refine ⟨h.next, h.next + 1, h.next + 2, rfl, Function.update_self _ _ _, ?_, ?_, rfl⟩
    · exact (Function.update_of_ne (by omega) _ _).trans (Function.update_self _ _ _)
    · exact (Function.update_of_ne (by omega) _ _).trans
        ((Function.update_of_ne (by omega) _ _).trans (Function.update_self _ _ _))

theorem rel_parseString (strlen : Nat) (hs : m.heap.Sound) :
    Option.Rel (Answers m.heap) (EFramework.parseString more fuel buf strlen m.con)
      (m.parseString more fuel buf strlen) := by
  unfold EFramework.parseString parseString
  refine rel_returning ?_
  rcases hm : m.con.malloc sizeofReply with ⟨_ | _, con⟩
  · rw [malloc_refused hm]
    exact rel_nil con hs.grown
  rw [malloc_ok hm]
  dsimp only
  rw [if_pos rfl, if_pos hs.pos.ne']
  have hrep := hs.grown.alloc .raw
  by_cases hnull : strlen = sizeT (-1)
  · rw [if_pos hnull, if_pos hnull]
    refine .some ⟨rfl, built_one (hrep.store (Nat.le_refl _) (Nat.lt_succ_self _) _) rfl ?_⟩
    exact ⟨_, none, rfl, Function.update_self _ _ _, rfl⟩
  rw [if_neg hnull, if_neg hnull]
  have hg := hrep.store (Nat.le_refl _) (Nat.lt_succ_self _) (.reply replyTypeStr none)
  generalize hm' : store ⟨con, _⟩ m.heap.next (.reply replyTypeStr none) = m₁
  obtain rfl : m₁.con = con := by rw [← hm']; rfl
  have hheap : m₁.heap = (m.heap.alloc .raw).store m.heap.next (.reply replyTypeStr none) := by
    rw [← hm']
    rfl
  have hrep : m₁.heap.blocks m.heap.next = some (.reply replyTypeStr none) := by
    rw [hheap]
    exact Function.update_self _ _ _
  have hnext : m₁.heap.next = m.heap.next + 1 := by rw [hheap]; rfl
  rw [← hheap] at hg
  clear hm' hheap
  rcases hm₁ : m₁.con.malloc sizeofReply with ⟨_ | _, con₁⟩
  · rw [malloc_refused hm₁]
    exact rel_nil con₁ hg
  rw [malloc_ok hm₁]
  dsimp only
  rw [if_pos rfl, if_pos (hs.of_grown hg).pos.ne']
  rcases hm₂ : con₁.malloc strlen with ⟨_ | _, con₂⟩
  · rw [malloc_refused (m := ⟨con₁, _⟩) hm₂]
    obtain ⟨hfree, hg'⟩ := free_reply hs (hg.alloc .raw)
      ((Function.update_of_ne (by omega) _ _).trans hrep) con₂
    dsimp only
    rw [if_neg (by decide), if_neg (by decide), hfree]
    exact rel_nil con₂ hg'
  rw [malloc_ok (m := ⟨con₁, _⟩) hm₂]
  dsimp only
  rw [if_pos rfl, if_pos (hs.of_grown (hg.alloc .raw)).pos.ne']
  by_cases hpending : con₂.pending < strlen
  · rw [if_pos hpending, if_pos hpending]
    refine rel_same _ (fun content => rel_same _ (fun r => ?_))
    rcases r with ⟨_ | content, con₃⟩
    · exact rel_nil con₃ ((hg.alloc .raw).alloc .raw)
    · exact .some ⟨rfl, built_string hg hnext content strlen con₃⟩
  · rw [if_neg hpending, if_neg hpending]
    exact rel_same _ (fun content => .some ⟨rfl, built_string hg hnext content strlen _⟩)

theorem rel_parseSingleString (hs : m.heap.Sound) :
    Option.Rel (Answers m.heap) (EFramework.parseSingleString more fuel buf m.con)
      (m.parseSingleString more fuel buf) := by
  refine rel_returning (rel_same _ (fun line => ?_))
  rcases line with ⟨_ | ⟨buf, k⟩, con⟩
  · exact rel_nil con hs.grown
  · exact rel_parseString more fuel buf k hs (m := ⟨con, m.heap⟩)

theorem rel_parseBulkString (hs : m.heap.Sound) :
    Option.Rel (Answers m.heap) (EFramework.parseBulkString more fuel buf m.con)
      (m.parseBulkString more fuel buf) := by
  refine rel_returning (rel_same _ (fun line => ?_))
  rcases line with ⟨_ | ⟨buf, k⟩, con⟩
  · exact rel_nil con hs.grown
  · exact rel_same _ (fun strlen => rel_parseString more fuel _ _ hs
      (m := ⟨{ con with seek := con.seek + (k + 2) }, m.heap⟩))

/-- No error is returned by either. -/
theorem rel_parseError (hs : m.heap.Sound) :
    Option.Rel (Answers m.heap) (EFramework.parseError more fuel buf m.con)
      (m.parseError more fuel buf) := by
  unfold EFramework.parseError parseError
  refine rel_returning ?_
  rcases hm : m.con.malloc sizeofReply with ⟨_ | _, con⟩
  · rw [malloc_refused hm]
    exact rel_nil con hs.grown
  rw [malloc_ok hm]
  dsimp only
  rw [if_pos rfl, if_pos hs.pos.ne']
  have hg := (hs.grown.alloc .raw).store (Nat.le_refl _) (Nat.lt_succ_self _)
    (.reply replyTypeErr none)
  generalize hm' : store ⟨con, _⟩ m.heap.next (.reply replyTypeErr none) = m₁
  obtain ⟨con', h₁⟩ := m₁
  obtain ⟨rfl, rfl⟩ := ReplyMemory.mk.inj hm'
  refine rel_same _ (fun line => ?_)
  rcases line with ⟨_ | ⟨buf, stop⟩, con⟩
  · obtain ⟨hfree, hg'⟩ := free_reply hs hg (Function.update_self _ _ _) con
    dsimp only
    rw [hfree]
    exact rel_nil con hg'
  dsimp only
  rcases hm₁ : con.malloc sizeofReply with ⟨_ | _, con₁⟩
  · rw [malloc_refused (m := ⟨con, _⟩) hm₁]
    exact rel_nil con₁ hg
  rw [malloc_ok (m := ⟨con, _⟩) hm₁]
  dsimp only
  rw [if_pos rfl, if_pos (hs.of_grown hg).pos.ne']
  refine rel_same _ (fun pos => ?_)
  cases pos with
  | none => exact .none
  | some pos =>
      simp only [endedCopy_eq_none, Lib.defined_option, Option.bind_eq_bind, Option.bind_none,
        ite_self, Option.bind_fun_none]
      exact .none

theorem rel_parseElem {par : Nat → RedisConnection → Option (RedisReply × RedisConnection)}
    {par' : Nat → ReplyMemory → Option (Nat × ReplyMemory)}
    (hpar : ∀ buf {m : ReplyMemory}, m.heap.Sound →
      Option.Rel (Answers m.heap) (par buf m.con) (par' buf m)) (c : UInt8) (hs : m.heap.Sound) :
    Option.Rel (Answers m.heap) (EFramework.parseElem more fuel par c buf m.con)
      (m.parseElem more fuel par' c buf) := by
  refine rel_ite (fun _ => rel_parseBulkString more fuel buf hs) (fun _ => ?_)
  exact rel_ite (fun _ => rel_parseLong more fuel buf hs) (fun _ => hpar buf hs)

theorem rel_parseElems {par : Nat → RedisConnection → Option (RedisReply × RedisConnection)}
    {par' : Nat → ReplyMemory → Option (Nat × ReplyMemory)}
    (hpar : ∀ buf {m : ReplyMemory}, m.heap.Sound →
      Option.Rel (Answers m.heap) (par buf m.con) (par' buf m)) (num : Nat) (hs : m.heap.Sound) :
    Option.Rel (AnswersAll m.heap num) (EFramework.parseElems more fuel par num buf m.con)
      (m.parseElems more fuel par' num buf) := by
  induction num generalizing buf m with
  | zero =>
      exact .some ⟨rfl, rfl, hs.grown, [], ⟨rfl, rfl⟩, List.nodup_nil, by simp,
        fun _ q hq hused => absurd (hs.beyond q hq) hused⟩
  | succ num ih =>
      refine rel_same _ (fun c => ?_)
      by_cases htype : c = 36 ∨ c = 58 ∨ c = 42
      · rw [if_pos htype, if_pos htype]
        refine rel_bind (rel_parseElem more fuel buf hpar c hs) ?_
        rintro ⟨rep, con⟩ ⟨p, m₁⟩ ⟨rfl, hbuilt⟩
        refine rel_bind (ih m₁.con.seek (hs.of_grown hbuilt.1)) ?_
        rintro ⟨reps, con⟩ ⟨ps, m₂⟩ ⟨rfl, rfl, hall⟩
        exact .some ⟨rfl, rfl, hbuilt.cons hall⟩
      · rw [if_neg htype, if_neg htype]
        refine rel_bind (ih buf hs) ?_
        rintro ⟨reps, con⟩ ⟨ps, m₁⟩ ⟨rfl, rfl, hall⟩
        exact .some ⟨rfl, rfl, Built.cons (built_unset hs) hall⟩

theorem rel_arrayElems {par : Nat → RedisConnection → Option (RedisReply × RedisConnection)}
    {par' : Nat → ReplyMemory → Option (Nat × ReplyMemory)}
    (hpar : ∀ buf {m : ReplyMemory}, m.heap.Sound →
      Option.Rel (Answers m.heap) (par buf m.con) (par' buf m)) (hs : h.Sound)
    (hg : h.Grown m.heap) (hnext : m.heap.next = h.next + 2) {repnum : Int}
    (hrep : m.heap.blocks h.next = some (.reply replyTypeArr (some (.arr (h.next + 1)))))
    (hrange : -2 ^ 31 ≤ repnum ∧ repnum < 2 ^ 31) :
    Option.Rel (Answers h)
      (do
        let (ok, con) := m.con.malloc (sizeT (sizeT repnum * 8))
        if ok then do
          let (elem, con) ← EFramework.parseElems more fuel par repnum.toNat buf con
          some (.arr (sizeT repnum) elem, con)
        else some (.nil, con))
      (do
        let (elem, m) := m.malloc (sizeT (sizeT repnum * 8))
        let m := m.store (h.next + 1) (.array (sizeT repnum) (some elem))
        if elem ≠ 0 then do
          let (ps, m) ← m.parseElems more fuel par' repnum.toNat buf
          some (h.next, m.store elem (.elems ps))
        else some (0, m)) := by
  rcases hm : m.con.malloc (sizeT (sizeT repnum * 8)) with ⟨_ | _, con⟩
  · rw [malloc_refused hm]
    exact rel_nil con (hg.store (Nat.le_succ _) (by omega) _)
  rw [malloc_ok hm]
  dsimp only
  rw [if_pos rfl, if_pos (hs.of_grown hg).pos.ne']
  obtain ⟨hnum, hlt⟩ := repnum_size hrange (malloc_size hm)
  have hg' := (hg.alloc .raw).store (Nat.le_succ _) (show h.next + 1 < m.heap.next + 1 by omega)
    (.array (sizeT repnum) (some m.heap.next))
  refine rel_bind (rel_parseElems more fuel buf hpar repnum.toNat (hs.of_grown hg')
    (m := ⟨con, _⟩)) ?_
  rintro ⟨elem, con'⟩ ⟨ps, m'⟩ ⟨hlen, rfl, hall⟩
  refine .some ⟨rfl, ?_⟩
  dsimp only [store]
  rw [hnext] at hg' hall ⊢
  refine built_arr hg' (congrArg (· + 1) hnext) ?_ ?_ hall
    (hnum.trans hlen.symm) (hnum ▸ hlt)
  · exact (Function.update_of_ne (by omega) _ _).trans
      ((Function.update_of_ne (by omega) _ _).trans hrep)
  · exact Function.update_self _ _ _

theorem rel_parseArray (hs : m.heap.Sound) :
    Option.Rel (Answers m.heap) (EFramework.parseArray more fuel buf m.con)
      (m.parseArray more fuel buf) := by
  induction fuel generalizing buf m with
  | zero => exact .none
  | succ fuel ih =>
      rw [EFramework.parseArray, parseArray]
      refine rel_returning ?_
      rcases hm : m.con.malloc sizeofReply with ⟨_ | _, con⟩
      · rw [malloc_refused hm]
        exact rel_nil con hs.grown
      rw [malloc_ok hm]
      dsimp only
      rw [if_pos rfl, if_pos hs.pos.ne']
      have hg := (hs.grown.alloc .raw).store (Nat.le_refl _) (Nat.lt_succ_self _)
        (.reply replyTypeArr none)
      generalize hm' : store ⟨con, _⟩ m.heap.next (.reply replyTypeArr none) = m₁
      obtain ⟨con', h₁⟩ := m₁
      obtain ⟨rfl, rfl⟩ := ReplyMemory.mk.inj hm'
      refine rel_same _ (fun line => ?_)
      cases line with
      | none =>
          refine rel_same _ (fun con => ?_)
          obtain ⟨hfree, hg'⟩ := free_reply hs hg (Function.update_self _ _ _) con
          rw [hfree]
          exact rel_nil con hg'
      | some k =>
          rcases hlen : parseLen (con.text buf) with _ | repnum
          · exact .none
          simp only [Lib.defined_option, Option.bind_eq_bind, Option.bind_some]
          rcases hm₁ : RedisConnection.malloc { con with seek := con.seek + (k + 2) } sizeofReply
            with ⟨_ | _, con₁⟩
          · rw [malloc_refused (m := ⟨{ con with seek := con.seek + (k + 2) }, _⟩) hm₁]
            exact rel_nil con₁ (hg.store (Nat.le_refl _) (Nat.lt_succ_self _) _)
          rw [malloc_ok (m := ⟨{ con with seek := con.seek + (k + 2) }, _⟩) hm₁]
          dsimp only
          rw [if_pos rfl, if_pos (hs.of_grown hg).pos.ne']
          have hg₂ := headed_grown hg rfl (sizeT repnum)
          by_cases hnull : repnum = -1
          · rw [if_pos hnull, if_pos hnull]
            exact .some ⟨rfl, built_null_array hg rfl (by rw [hnull])⟩
          rw [if_neg hnull, if_neg hnull]
          exact rel_arrayElems more fuel _ (fun buf m hs => ih buf hs) hs
            (m := store (store ⟨con₁, _⟩ _ _) _ _) hg₂ rfl
            ((Function.update_of_ne (Nat.ne_of_lt (Nat.lt_succ_self _)) _ _).trans
              (Function.update_self _ _ _)) (parseLen_range hlen)

theorem rel_parseReply (hs : m.heap.Sound) :
    Option.Rel (Answers m.heap) (EFramework.parseReply more fuel m.con)
      (m.parseReply more fuel) := by
  refine rel_same _ (fun c => ?_)
  refine rel_ite (fun _ => rel_parseError more fuel 0 hs) (fun _ => ?_)
  refine rel_ite (fun _ => rel_parseSingleString more fuel 0 hs) (fun _ => ?_)
  refine rel_ite (fun _ => rel_parseLong more fuel 0 hs) (fun _ => ?_)
  refine rel_ite (fun _ => rel_parseArray more fuel 0 hs) (fun _ => ?_)
  exact rel_ite (fun _ => rel_parseBulkString more fuel 0 hs) (fun _ => rel_nil m.con hs.grown)

end

/-- The blocks make no difference to what is read, and a reply is in the blocks that have been
allocated for it. -/
theorem rel_readReply (fuel : Nat) (hs : m.heap.Sound) :
    Option.Rel (Answers m.heap) (EFramework.efRedisReadReply fuel m.con)
      (m.efRedisReadReply fuel) := by
  unfold EFramework.efRedisReadReply readReply efRedisReadReply
  rcases efWrapRead (min m.con.buf.length maxTransfer) m.con.src with ⟨r, _, bytes, src⟩
  refine rel_ite (fun _ => rel_nil _ hs.grown) (fun _ => ?_)
  exact rel_parseReply replyReadMore fuel hs (m := ⟨{ m.con with
    buf := writeAt m.con.buf 0 bytes, seek := 0, stop := bytes.length, src := src }, m.heap⟩)

end ReplyMemory

end EFramework
