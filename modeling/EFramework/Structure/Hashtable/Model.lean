import EFramework.Structure.Memory

/-! # The hash table of `structure/hashtable.c`

One block holds `cap` slot words in front of `cap` buckets; `arrData` points at
the first bucket and the slots are reached through negative offsets. Bucket
indices and the two list heads are `uint32_t`, with `-1` closing a chain. The
`next` field of a bucket threads the collision chain of its slot while the
bucket is in use and the `removed` chain once it is dead.

Values are opaque pointers, `none` being NULL. Loops over chains carry fuel and
answer `none` when it runs out.
-/

namespace EFramework

def nil32 : Nat := 2 ^ 32 - 1

structure Bucket (V : Type) where
  h : UInt64
  key : Option EfString
  val : Option V
  next : Nat
deriving Repr, DecidableEq

def Bucket.zero (V : Type) : Bucket V := ⟨0, none, none, 0⟩

def Bucket.Live {V : Type} (pb : Bucket V) : Prop := ¬ (pb.h = 0 ∧ pb.key = none)

instance {V : Type} (pb : Bucket V) : Decidable pb.Live :=
  inferInstanceAs (Decidable (¬ _))

structure Hashtable (V : Type) where
  cap : Nat
  sizemask : Nat
  used : Nat
  next : Nat
  removed : Nat
  /-- Whether a value destructor was given. -/
  valDtor : Bool
  slots : List Nat
  arrData : List (Bucket V)
deriving Repr, DecidableEq

/-- What the table shares with its surroundings: the allocator, and the values
handed to `val_dtor` so far, oldest first. -/
structure World (V : Type) where
  heap : Heap
  destroyed : List V
deriving Repr, DecidableEq

variable {V : Type}

/-- `if (pb->val.ptr && ht->val_dtor) ht->val_dtor(pb->val.ptr)`. -/
def World.destroy (w : World V) (valDtor : Bool) : Option V → World V
  | some v => if valDtor then { w with destroyed := w.destroyed ++ [v] } else w
  | none => w

theorem World.heap_destroy (w : World V) (valDtor : Bool) (v : Option V) :
    (w.destroy valDtor v).heap = w.heap := by
  unfold World.destroy
  repeat' split
  all_goals rfl

/-! ## Hashing and capacities -/

/-- `hash = ((hash << 5) + hash) + *str++` with the signed `char` of x86. -/
def hashStep (hash : UInt64) (c : UInt8) : UInt64 :=
  ((hash <<< 5) + hash) + c.toInt8.toInt64.toUInt64

/-- The loop unrolled eight times, then the fall-through `switch`. -/
def hashLoop (hash : UInt64) : Bytes → UInt64
  | c₀ :: c₁ :: c₂ :: c₃ :: c₄ :: c₅ :: c₆ :: c₇ :: str =>
      let hash := hashStep (hashStep (hashStep (hashStep hash c₀) c₁) c₂) c₃
      let hash := hashStep (hashStep (hashStep (hashStep hash c₄) c₅) c₆) c₇
      hashLoop hash str
  | str => str.foldl hashStep hash

def hashFunc (str : Bytes) (len : Nat) : UInt64 :=
  hashLoop 5381 (str.take len) ||| 0x8000000000000000

def hashTableInitCap : Nat := 8

/-- The or-shift cascade over `uint32_t`. -/
def smear32 (n : Nat) : Nat :=
  let n := n ||| n >>> 1
  let n := n ||| n >>> 2
  let n := n ||| n >>> 4
  let n := n ||| n >>> 8
  n ||| n >>> 16

def hashRecap (cap : Nat) : Nat :=
  if cap ≤ hashTableInitCap then hashTableInitCap
  else (smear32 (cap - 1) + 1) % 2 ^ 32

/-- `HASH_SIZEMASK`: the `uint32_t` negation of the capacity. -/
def hashSizemask (cap : Nat) : Nat := (2 ^ 32 - cap) % 2 ^ 32

namespace Hashtable

/-- `HASH_OFFSET`, a signed 32-bit offset from `arrData`. -/
def hashOffset (ht : Hashtable V) (h : UInt64) : Int :=
  let bits : Nat := (h.toNat % 2 ^ 32) ||| ht.sizemask
  if bits < 2 ^ 31 then (bits : Int) else (bits : Int) - 2 ^ 32

/-- Position in the slot array of the word at `off` words before `arrData`. -/
def slotPos (ht : Hashtable V) (off : Int) : Nat := ((ht.cap : Int) + off).toNat

def hashEntry (ht : Hashtable V) (off : Int) : Nat := ht.slots.getD (ht.slotPos off) nil32

def setHashEntry (ht : Hashtable V) (off : Int) (index : Nat) : Hashtable V :=
  { ht with slots := ht.slots.set (ht.slotPos off) index }

def bucket (ht : Hashtable V) (i : Nat) : Bucket V := ht.arrData.getD i (Bucket.zero V)

def setBucket (ht : Hashtable V) (i : Nat) (pb : Bucket V) : Hashtable V :=
  { ht with arrData := ht.arrData.set i pb }

/-- Fill bucket `pb` and put it in front of the chain of its slot: the last lines
of `ef_hashtable_set_key_value` and the body of the loop in `ef_hashtable_resize`. -/
def linkBucket (ht : Hashtable V) (pb : Nat) (h : UInt64) (key : Option EfString)
    (val : Option V) : Hashtable V :=
  let offset := ht.hashOffset h
  (ht.setBucket pb ⟨h, key, val, ht.hashEntry offset⟩).setHashEntry offset pb

end Hashtable

/-! ## Allocation of tables -/

/-- All slots `-1`, all buckets zero. -/
def allocHashData (V : Type) (cap : Nat) (m : Heap) :
    Option (List Nat × List (Bucket V)) × Heap :=
  let (ok, m) := m.malloc
  if ok then (some (List.replicate cap nil32, List.replicate cap (Bucket.zero V)), m)
  else (none, m)

def efHashtableNew (V : Type) (cap : Nat) (valDtor : Bool) (m : Heap) :
    Option (Hashtable V) × Heap :=
  let cap := hashRecap cap
  match allocHashData V cap m with
  | (none, m) => (none, m)
  | (some (slots, bks), m) =>
      let (ok, m) := m.malloc
      if ok then (some ⟨cap, hashSizemask cap, 0, 0, nil32, valDtor, slots, bks⟩, m)
      else (none, m)

/-! ## Looking up and removing -/

def Bucket.matches (pb : Bucket V) (h : UInt64) (key : Bytes) (len : Nat) : Bool :=
  match pb.key with
  | some s => pb.h == h && (s.len == len && s.str.take len == key.take len)
  | none => false

def findLoop (ht : Hashtable V) (h : UInt64) (key : Bytes) (len : Nat) :
    Nat → Nat → Option (Option Nat)
  | 0, _ => none
  | fuel + 1, pb =>
      if (ht.bucket pb).matches h key len then some (some pb)
      else if (ht.bucket pb).next = nil32 then some none
      else findLoop ht h key len fuel (ht.bucket pb).next

/-- The bucket found, or NULL. -/
def efHashtableFindKey (ht : Hashtable V) (key : Bytes) (len : Nat) : Option (Option Nat) :=
  let h := hashFunc key len
  let index := ht.hashEntry (ht.hashOffset h)
  if index = nil32 then some none else findLoop ht h key len ht.cap index

/-- What `pidx` points at: a slot word, or the `next` field of a bucket. -/
inductive IndexRef where
  | slot (offset : Int)
  | link (pb : Nat)
deriving Repr, DecidableEq

def Hashtable.setRef (ht : Hashtable V) (index : Nat) : IndexRef → Hashtable V
  | .slot offset => ht.setHashEntry offset index
  | .link pb => ht.setBucket pb { ht.bucket pb with next := index }

def efHashtableFreeBucket (ht : Hashtable V) (pb : Nat) (w : World V) :
    Hashtable V × World V :=
  let b := ht.bucket pb
  if b.Live then
    let val := if ht.valDtor then none else b.val
    let ht' := ht.setBucket pb ⟨0, none, val, ht.removed⟩
    ({ ht' with removed := pb, used := ht.used - 1 }, w.destroy ht.valDtor b.val)
  else (ht, w)

/-- The `while (1)` of `ef_hashtable_remove_key`, at bucket `pb` reached through `pidx`. -/
def removeLoop (ht : Hashtable V) (h : UInt64) (key : Bytes) (len : Nat) (w : World V) :
    Nat → IndexRef → Nat → Option (Hashtable V × World V)
  | 0, _, _ => none
  | fuel + 1, pidx, pb =>
      if (ht.bucket pb).matches h key len then
        some (efHashtableFreeBucket (ht.setRef (ht.bucket pb).next pidx) pb w)
      else if (ht.bucket pb).next = nil32 then some (ht, w)
      else removeLoop ht h key len w fuel (.link pb) (ht.bucket pb).next

/-- Always returns 0, so only the table and its surroundings are modelled. -/
def efHashtableRemoveKey (ht : Hashtable V) (key : Bytes) (len : Nat) (w : World V) :
    Option (Hashtable V × World V) :=
  let h := hashFunc key len
  let offset := ht.hashOffset h
  let index := ht.hashEntry offset
  if index = nil32 then some (ht, w)
  else removeLoop ht h key len w ht.cap (.slot offset) index

/-! ## Growing and setting -/

/-- One round of the copy loop; the pair is the new table and `newptr`. -/
def rehashBucket (st : Hashtable V × Nat) (pb : Bucket V) : Hashtable V × Nat :=
  if pb.Live then (st.1.linkBucket st.2 pb.h pb.key pb.val, st.2 + 1) else st

/-- The return value is 0 or -1. -/
def efHashtableResize (ht : Hashtable V) (cap : Nat) (m : Heap) : Int × Hashtable V × Heap :=
  let cap := hashRecap cap
  if cap < ht.used then (-1, ht, m)
  else
    match allocHashData V cap m with
    | (none, m) => (-1, ht, m)
    | (some (slots, newbks), m) =>
        let fresh : Hashtable V :=
          { ht with
            cap := cap, sizemask := hashSizemask cap, next := ht.used, removed := nil32
            slots := slots, arrData := newbks }
        (0, ((ht.arrData.take ht.cap).foldl rehashBucket (fresh, 0)).1, m)

/-- The code at label `alloc_bucket`. Fuel bounds the jumps back to the label. -/
def allocBucket : Nat → Hashtable V → Heap → Option (Option Nat × Hashtable V × Heap)
  | 0, _, _ => none
  | fuel + 1, ht, m =>
      if ht.next < ht.cap then
        some (some ht.next, { ht with next := ht.next + 1 }, m)
      else if ht.removed ≠ nil32 then
        some (some ht.removed, { ht with removed := (ht.bucket ht.removed).next }, m)
      else
        match efHashtableResize ht (ht.cap <<< 1 % 2 ^ 32) m with
        | (ret, ht, m) => if ret = 0 then allocBucket fuel ht m else some (none, ht, m)

/-- Fill the allocated bucket, or give it back when its key cannot be copied. -/
def fillBucket (ht : Hashtable V) (pb : Nat) (key : Bytes) (klen : Nat) (val : Option V)
    (m : Heap) : Option Nat × Hashtable V × Heap :=
  match efStringNew (some key) klen m with
  | (none, m) =>
      let ht' := ht.setBucket pb { ht.bucket pb with key := none, next := ht.removed }
      (none, { ht' with removed := pb }, m)
  | (some s, m) =>
      let ht := { ht with used := ht.used + 1 }
      (some pb, ht.linkBucket pb (hashFunc key klen) (some s) val, m)

/-- The bucket set, or NULL. -/
def efHashtableSetKeyValue (ht : Hashtable V) (key : Bytes) (klen : Nat) (val : Option V)
    (w : World V) : Option (Option Nat × Hashtable V × World V) :=
  match efHashtableFindKey ht key klen with
  | none => none
  | some (some pb) =>
      some (some pb, ht.setBucket pb { ht.bucket pb with val := val },
        w.destroy ht.valDtor (ht.bucket pb).val)
  | some none =>
      match allocBucket 2 ht w.heap with
      | none => none
      | some (none, ht, m) => some (none, ht, { w with heap := m })
      | some (some pb, ht, m) =>
          match fillBucket ht pb key klen val m with
          | (ret, ht, m) => some (ret, ht, { w with heap := m })

/-- Sweep over all buckets; the block and the table itself are released after it. -/
def efHashtableFree (ht : Hashtable V) (w : World V) : World V :=
  ((List.range ht.cap).foldl (fun st idx => efHashtableFreeBucket st.1 idx st.2) (ht, w)).2

end EFramework
