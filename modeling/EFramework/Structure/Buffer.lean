import EFramework.Structure.Memory

/-! # The byte buffer of `structure/buffer.c`

A buffer is a block of `cap` bytes of which the first `len` are in use. Memory is
the list of the bytes from a pointer on, so `memcpy` and `read` overwrite a
stretch of it. What a fresh block holds is unspecified in C and zero here.
-/

namespace EFramework

def writeAt (mem : Bytes) (off : Nat) (bs : Bytes) : Bytes :=
  mem.take off ++ bs ++ mem.drop (off + bs.length)

theorem writeAt_length {mem : Bytes} {off : Nat} {bs : Bytes}
    (h : off + bs.length ≤ mem.length) : (writeAt mem off bs).length = mem.length := by
  simp only [writeAt, List.length_append, List.length_take, List.length_drop]
  omega

theorem writeAt_take {mem : Bytes} {off : Nat} {bs : Bytes} (h : off ≤ mem.length) :
    (writeAt mem off bs).take (off + bs.length) = mem.take off ++ bs := by
  have hlen : (mem.take off ++ bs).length = off + bs.length := by
    rw [List.length_append, List.length_take]
    omega
  rw [writeAt, ← hlen, List.take_left]

def sizeSub (a b : Nat) : Nat := (a + 2 ^ 64 - b) % 2 ^ 64

theorem sizeSub_eq {a b : Nat} (ha : a < 2 ^ 64) (hb : b ≤ a) : sizeSub a b = a - b := by
  unfold sizeSub
  omega

/-- `ptr` is the block, empty for a NULL pointer. -/
structure EfBuffer where
  ptr : Bytes
  cap : Nat
  len : Nat
deriving Repr, DecidableEq

namespace EfBuffer

def content (buf : EfBuffer) : Bytes := buf.ptr.take buf.len

structure Wf (buf : EfBuffer) : Prop where
  length_ptr : buf.ptr.length = buf.cap
  len_le : buf.len ≤ buf.cap
  cap_lt : buf.cap < 2 ^ 63

theorem Wf.length_content {buf : EfBuffer} (wf : buf.Wf) : buf.content.length = buf.len := by
  have h₁ := wf.length_ptr
  have h₂ := wf.len_le
  rw [content, List.length_take]
  omega

theorem Wf.room {buf : EfBuffer} (wf : buf.Wf) : sizeSub buf.cap buf.len = buf.cap - buf.len := by
  have h := wf.cap_lt
  exact sizeSub_eq (by omega) wf.len_le

end EfBuffer

/-! ## Making, growing and appending -/

def efBufferNew (cap : Nat) (m : Heap) : Option EfBuffer × Heap :=
  let (ok, m) := m.malloc
  if ok then
    let cap := if cap ≠ 0 then efResize cap 0 else cap
    if cap ≠ 0 then
      let (ok, m) := m.alloc cap
      if ok then (some ⟨List.replicate cap 0, cap, 0⟩, m) else (none, m)
    else (some ⟨[], 0, 0⟩, m)
  else (none, m)

def efBufferExpand (buf : EfBuffer) (len : Nat) (m : Heap) : Int × EfBuffer × Heap :=
  if len ≤ sizeSub buf.cap buf.len then (0, buf, m)
  else
    let cap := efResize ((buf.len + len) % 2 ^ 64) 0
    let (ok, m) := if buf.ptr ≠ [] then m.alloc cap else m.mallocOf cap
    if ok then
      (0, { buf with
        ptr := buf.ptr.take cap ++ List.replicate (cap - buf.ptr.length) 0, cap := cap }, m)
    else (-1, buf, m)

/-- Fuel bounds the jumps back to `copy_data`. -/
def efBufferAppendLoop : Nat → EfBuffer → Bytes → Heap → Option (Int × EfBuffer × Heap)
  | 0, _, _, _ => none
  | fuel + 1, buf, data, m =>
      if data.length ≤ sizeSub buf.cap buf.len then
        some (0, { buf with
          ptr := writeAt buf.ptr buf.len data, len := (buf.len + data.length) % 2 ^ 64 }, m)
      else
        match efBufferExpand buf data.length m with
        | (ret, buf, m) => if ret < 0 then some (-1, buf, m) else efBufferAppendLoop fuel buf data m

def efBufferAppend (buf : EfBuffer) (data : Bytes) (m : Heap) : Option (Int × EfBuffer × Heap) :=
  efBufferAppendLoop 2 buf data m

/-! ## What they do to a well-formed buffer -/

theorem efResize_cases {cap : Nat} (hpos : 0 < cap) (hlt : cap < 2 ^ 64) :
    (cap ≤ efResize cap 0 ∧ efResize cap 0 ≤ 2 ^ 63) ∨ (2 ^ 63 < cap ∧ efResize cap 0 = 0) := by
  by_cases hle : cap ≤ 2 ^ 63
  · left
    have hmax : max cap 0 = cap := by omega
    rw [efResize_eq (by omega) (by omega), hmax]
    refine ⟨?_, ?_⟩
    · have := Nat.lt_size_self (cap - 1)
      omega
    · refine Nat.pow_le_pow_right (by decide) ?_
      rw [Nat.size_le]
      omega
  · exact Or.inr ⟨by omega, efResize_wrap (by omega) hlt⟩

def EfBuffer.fresh (cap : Nat) : EfBuffer := ⟨List.replicate cap 0, cap, 0⟩

theorem EfBuffer.fresh_wf {cap : Nat} (h : cap < 2 ^ 63) : (EfBuffer.fresh cap).Wf :=
  ⟨List.length_replicate, Nat.zero_le _, h⟩

/-- The capacity of a new buffer; above `2 ^ 63` bytes it has no storage at all. -/
def bufferCap (cap : Nat) : Nat := if cap ≠ 0 then efResize cap 0 else 0

theorem le_bufferCap {cap : Nat} (h : cap ≤ 2 ^ 63) : cap ≤ bufferCap cap := by
  unfold bufferCap
  split
  · rcases efResize_cases (show 0 < cap by omega) (by omega) with h | h <;> omega
  · omega

theorem efBufferNew_some {cap : Nat} {m : Heap} {buf : EfBuffer}
    (h : (efBufferNew cap m).1 = some buf) :
    buf = EfBuffer.fresh (bufferCap cap) ∧ bufferCap cap < 2 ^ 63 := by
  unfold efBufferNew at h
  unfold bufferCap
  by_cases hz : cap = 0
  · simp only [hz, ne_eq, not_true_eq_false, if_false] at h ⊢
    split at h
    · exact ⟨(Option.some.inj h).symm, by decide⟩
    · simp at h
  · simp only [ne_eq, hz, not_false_eq_true, if_true] at h ⊢
    split at h
    · split at h
      · split at h
        next hok => exact ⟨(Option.some.inj h).symm, (Heap.alloc_size hok).2⟩
        next => simp at h
      next hr =>
        rw [not_not.mp hr]
        exact ⟨(Option.some.inj h).symm, by decide⟩
    · simp at h

theorem efBufferNew_failures (cap : Nat) (m : Heap) :
    m.failures ≤ (efBufferNew cap m).2.failures ∧
      ((efBufferNew cap m).2.failures = m.failures → (efBufferNew cap m).1.isSome) := by
  have h₁ := m.request_failures true
  have h₂ := (m.request true).2.alloc_failures (efResize cap 0)
  unfold efBufferNew
  dsimp only [Heap.malloc]
  by_cases hz : cap = 0
  · simp only [hz, ne_eq, not_true_eq_false, if_false]
    cases hb₁ : (m.request true).1 <;>
      simp only [hb₁, Bool.false_eq_true, if_false, if_true] at h₁ ⊢
    · exact ⟨by omega, fun he => by omega⟩
    · exact ⟨by omega, fun _ => rfl⟩
  · simp only [ne_eq, hz, not_false_eq_true, if_true]
    generalize (m.request true).2.alloc (efResize cap 0) = r at h₂ ⊢
    by_cases hr : efResize cap 0 = 0 <;> cases hb₁ : (m.request true).1 <;>
      cases hb₂ : r.1 <;>
      simp only [hr, hb₁, hb₂, Bool.false_eq_true, not_true_eq_false, not_false_eq_true, if_false,
        if_true] at h₁ h₂ ⊢ <;>
      exact ⟨by omega, fun he => by first | rfl | omega⟩

namespace EfBuffer.Wf

variable {buf : EfBuffer}

/-- Without storage the request is not for 0 bytes, so `malloc` does what `realloc` does. -/
theorem expand_alloc (wf : buf.Wf) {len : Nat} (hlen : len ≤ 2 ^ 63)
    (hroom : ¬ len ≤ buf.cap - buf.len) (m : Heap) :
    (if buf.ptr ≠ [] then m.alloc (efResize (buf.len + len) 0)
      else m.mallocOf (efResize (buf.len + len) 0)) = m.alloc (efResize (buf.len + len) 0) := by
  by_cases hp : buf.ptr = []
  · have h₁ := wf.length_ptr
    have h₂ := wf.len_le
    rw [hp, List.length_nil] at h₁
    have hsize := efResize_cases (show 0 < buf.len + len by omega) (by omega)
    rw [if_neg (not_not.mpr hp), Heap.mallocOf_eq_alloc (by omega)]
  · rw [if_pos hp]

theorem expand_spec (wf : buf.Wf) {len : Nat} (hlen : len ≤ 2 ^ 63) (m : Heap) :
    ∃ ret buf' m', efBufferExpand buf len m = (ret, buf', m') ∧ m.failures ≤ m'.failures ∧
      ((ret = 0 ∧ buf'.Wf ∧ buf'.content = buf.content ∧ buf'.len = buf.len ∧
          len ≤ buf'.cap - buf'.len ∧ m'.failures = m.failures) ∨
        (ret = -1 ∧ buf' = buf ∧ m'.failures ≠ m.failures)) := by
  have h₁ := wf.length_ptr
  have h₂ := wf.len_le
  have h₃ := wf.cap_lt
  unfold efBufferExpand
  rw [wf.room]
  by_cases hroom : len ≤ buf.cap - buf.len
  · rw [if_pos hroom]
    exact ⟨0, buf, m, rfl, Nat.le_refl _, Or.inl ⟨rfl, wf, rfl, rfl, hroom, rfl⟩⟩
  rw [if_neg hroom, Nat.mod_eq_of_lt (by omega)]
  dsimp only
  rw [wf.expand_alloc hlen hroom]
  have hsize := efResize_cases (show 0 < buf.len + len by omega) (by omega)
  have hfail := m.alloc_failures (efResize (buf.len + len) 0)
  have halloc := @Heap.alloc_size m (efResize (buf.len + len) 0)
  generalize m.alloc (efResize (buf.len + len) 0) = r at hfail halloc ⊢
  obtain ⟨ok, m'⟩ := r
  cases ok with
  | false =>
      simp only [Bool.false_eq_true, if_false] at hfail ⊢
      exact ⟨_, _, _, rfl, by omega, Or.inr ⟨rfl, rfl, by omega⟩⟩
  | true =>
      obtain ⟨hle, hmax⟩ : buf.len + len ≤ efResize (buf.len + len) 0 ∧
          efResize (buf.len + len) 0 < 2 ^ 63 := by
        have := halloc rfl
        omega
      simp only [if_true] at hfail ⊢
      refine ⟨_, _, _, rfl, by omega, Or.inl ⟨rfl, ⟨?_, ?_, hmax⟩, ?_, rfl, ?_, hfail⟩⟩
      · simp only [List.length_append, List.length_take, List.length_replicate]
        omega
      · dsimp only
        omega
      · simp only [content]
        rw [List.take_of_length_le (l := buf.ptr) (by omega), List.take_append_of_le_length (by omega)]
      · dsimp only
        omega

/-- Appending to a buffer with room for the bytes asks for no memory. -/
theorem append_fits (wf : buf.Wf) {data : Bytes} (h : data.length ≤ buf.cap - buf.len)
    (m : Heap) :
    ∃ buf', efBufferAppend buf data m = some (0, buf', m) ∧ buf'.Wf ∧ buf'.cap = buf.cap ∧
      buf'.content = buf.content ++ data := by
  have h₁ := wf.length_ptr
  have h₂ := wf.len_le
  have h₃ := wf.cap_lt
  unfold efBufferAppend
  rw [efBufferAppendLoop, wf.room, if_pos h, Nat.mod_eq_of_lt (by omega)]
  refine ⟨_, rfl, ⟨?_, ?_, h₃⟩, rfl, ?_⟩
  · rw [writeAt_length (by omega)]
    exact h₁
  · dsimp only
    omega
  · exact writeAt_take (by omega)

theorem append_spec (wf : buf.Wf) {data : Bytes} (hlen : data.length ≤ 2 ^ 63) (m : Heap) :
    ∃ ret buf' m', efBufferAppend buf data m = some (ret, buf', m') ∧
      m.failures ≤ m'.failures ∧
      ((ret = 0 ∧ buf'.Wf ∧ buf'.content = buf.content ++ data ∧ m'.failures = m.failures) ∨
        (ret = -1 ∧ buf' = buf ∧ m'.failures ≠ m.failures)) := by
  by_cases hroom : data.length ≤ buf.cap - buf.len
  · obtain ⟨buf', he, hwf, _, hcontent⟩ := wf.append_fits hroom m
    exact ⟨0, buf', m, he, Nat.le_refl _, Or.inl ⟨rfl, hwf, hcontent, rfl⟩⟩
  obtain ⟨ret, buf₁, m₁, he, hm, hcase⟩ := wf.expand_spec hlen m
  unfold efBufferAppend
  rw [efBufferAppendLoop, wf.room, if_neg hroom, he]
  dsimp only
  rcases hcase with ⟨rfl, wf₁, hcontent, hlen₁, hroom₁, hfail⟩ | ⟨rfl, rfl, hne⟩
  · -- the jump back finds the grown buffer
    obtain ⟨buf', he', hwf', _, hcontent'⟩ := wf₁.append_fits hroom₁ m₁
    rw [if_neg (by omega)]
    rw [efBufferAppend, efBufferAppendLoop, wf₁.room, if_pos hroom₁] at he'
    rw [efBufferAppendLoop, wf₁.room, if_pos hroom₁]
    exact ⟨0, buf', m₁, he', hm, Or.inl ⟨rfl, hwf', by rw [hcontent', hcontent], hfail⟩⟩
  · exact ⟨-1, buf₁, m₁, by simp, hm, Or.inr ⟨rfl, rfl, hne⟩⟩

end EfBuffer.Wf

/-! ## Runs -/

theorem efBufferAppendLoop_more {buf : EfBuffer} {data : Bytes} {m : Heap}
    {out : Int × EfBuffer × Heap} {fuel : Nat}
    (h : efBufferAppendLoop fuel buf data m = some out) (more : Nat) :
    efBufferAppendLoop (fuel + more) buf data m = some out := by
  induction fuel generalizing buf m with
  | zero => cases h
  | succ fuel ih =>
      rw [efBufferAppendLoop] at h
      rw [Nat.add_right_comm, efBufferAppendLoop]
      split at h
      next hroom => rw [if_pos hroom, h]
      next hroom =>
        rw [if_neg hroom]
        dsimp only at h ⊢
        split at h
        next hneg => rw [if_pos hneg, h]
        next hneg =>
          rw [if_neg hneg]
          exact ih h

inductive BufferOp where
  | append (data : Bytes)
  | expand (len : Nat)
deriving Repr, DecidableEq

def BufferOp.length : BufferOp → Nat
  | append data => data.length
  | expand len => len

/-- In every state of a run the first `len` bytes of the block are in use. An append
goes through its body at most twice; it adds the bytes or leaves the buffer as it was.
An expand makes room, with the same bytes in use, or leaves the buffer as it was. -/
def BufferLaw : EfBuffer → Heap → List BufferOp → Prop
  | buf, _, [] => buf.ptr.length = buf.cap ∧ buf.len ≤ buf.cap
  | buf, m, .append data :: ops =>
      buf.ptr.length = buf.cap ∧ buf.len ≤ buf.cap ∧ ∃ ret buf' m',
        (∀ more, efBufferAppendLoop (2 + more) buf data m = some (ret, buf', m')) ∧
        (ret = 0 ∧ buf'.content = buf.content ++ data ∨ ret = -1 ∧ buf' = buf) ∧
        BufferLaw buf' m' ops
  | buf, m, .expand len :: ops =>
      buf.ptr.length = buf.cap ∧ buf.len ≤ buf.cap ∧ ∃ ret buf' m',
        efBufferExpand buf len m = (ret, buf', m') ∧
        (ret = 0 ∧ buf'.content = buf.content ∧ len ≤ buf'.cap - buf'.len ∨
          ret = -1 ∧ buf' = buf) ∧
        BufferLaw buf' m' ops

theorem EfBuffer.Wf.law {buf : EfBuffer} (wf : buf.Wf) {ops : List BufferOp}
    (hsum : (ops.map BufferOp.length).sum ≤ 2 ^ 63) (m : Heap) : BufferLaw buf m ops := by
  induction ops generalizing buf m with
  | nil => exact ⟨wf.length_ptr, wf.len_le⟩
  | cons op ops ih =>
      rw [List.map_cons, List.sum_cons] at hsum
      have hrest : (ops.map BufferOp.length).sum ≤ 2 ^ 63 := by omega
      cases op with
      | append data =>
          have hlen : data.length ≤ 2 ^ 63 := Nat.le_trans (Nat.le_add_right _ _) hsum
          obtain ⟨ret, buf', m', he, _, hcase⟩ := wf.append_spec hlen m
          refine ⟨wf.length_ptr, wf.len_le, ret, buf', m', efBufferAppendLoop_more he, ?_, ?_⟩
          · rcases hcase with ⟨hret, _, hcontent, _⟩ | ⟨hret, hbuf, _⟩
            · exact Or.inl ⟨hret, hcontent⟩
            · exact Or.inr ⟨hret, hbuf⟩
          · rcases hcase with ⟨_, wf', _⟩ | ⟨_, rfl, _⟩
            · exact ih wf' hrest m'
            · exact ih wf hrest m'
      | expand len =>
          have hlen : len ≤ 2 ^ 63 := Nat.le_trans (Nat.le_add_right _ _) hsum
          obtain ⟨ret, buf', m', he, _, hcase⟩ := wf.expand_spec hlen m
          refine ⟨wf.length_ptr, wf.len_le, ret, buf', m', he, ?_, ?_⟩
          · rcases hcase with ⟨hret, _, hcontent, _, hroom, _⟩ | ⟨hret, hbuf, _⟩
            · exact Or.inl ⟨hret, hcontent, hroom⟩
            · exact Or.inr ⟨hret, hbuf⟩
          · rcases hcase with ⟨_, wf', _⟩ | ⟨_, rfl, _⟩
            · exact ih wf' hrest m'
            · exact ih wf hrest m'

theorem buffer_law {cap : Nat} {m m' : Heap} {buf : EfBuffer}
    (hnew : efBufferNew cap m = (some buf, m')) {ops : List BufferOp}
    (hsum : (ops.map BufferOp.length).sum ≤ 2 ^ 63) : BufferLaw buf m' ops := by
  obtain ⟨rfl, hcap⟩ := efBufferNew_some (congrArg Prod.fst hnew)
  exact (EfBuffer.fresh_wf hcap).law hsum m'

/-- A buffer without storage: two bytes are appended, then the allocator refuses. -/
theorem buffer_law_empty :
    BufferLaw ⟨[], 0, 0⟩ ⟨[true, false], 1, 0⟩ [.append [1, 2], .expand 7, .append [3]] :=
  buffer_law (show efBufferNew 0 ⟨[true, true, false], 0, 0⟩ =
    (some ⟨[], 0, 0⟩, ⟨[true, false], 1, 0⟩) from rfl) (by decide)

end EFramework
