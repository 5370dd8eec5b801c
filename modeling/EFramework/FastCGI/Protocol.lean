import EFramework.Structure.Headertab
import EFramework.Structure.Stringtab
import EFramework.Structure.Buffer

/-! # Records of the FastCGI protocol

The types of `fastcgi.h`, and the wire format as a whole: a record is an eight
byte header, its content and its padding. Encoding a list of records and parsing
it back gives the list.
-/

namespace EFramework

/-- `BUFFER_SIZE` of `fastcgi.c`. -/
def bufferSize : Nat := 8192

def fcgiBeginRequest : UInt8 := 1
def fcgiEndRequest : UInt8 := 3
def fcgiParams : UInt8 := 4
def fcgiStdin : UInt8 := 5
def fcgiStdout : UInt8 := 6

/-- `MAKE_UINT16`: low byte first. -/
def makeUint16 (x y : UInt8) : Nat := x.toNat ||| y.toNat <<< 8

structure FcgiHeader where
  version : UInt8
  type : UInt8
  requestIdB1 : UInt8
  requestIdB0 : UInt8
  contentLengthB1 : UInt8
  contentLengthB0 : UInt8
  paddingLength : UInt8
  reserved : UInt8
deriving Repr, DecidableEq

namespace FcgiHeader

def bytes (hdr : FcgiHeader) : Bytes :=
  [hdr.version, hdr.type, hdr.requestIdB1, hdr.requestIdB0, hdr.contentLengthB1,
    hdr.contentLengthB0, hdr.paddingLength, hdr.reserved]

def ofBytes (mem : Bytes) : FcgiHeader :=
  ⟨mem.getD 0 0, mem.getD 1 0, mem.getD 2 0, mem.getD 3 0, mem.getD 4 0, mem.getD 5 0,
    mem.getD 6 0, mem.getD 7 0⟩

def contentLength (hdr : FcgiHeader) : Nat := makeUint16 hdr.contentLengthB0 hdr.contentLengthB1

def requestId (hdr : FcgiHeader) : Nat := makeUint16 hdr.requestIdB0 hdr.requestIdB1

@[simp] theorem ofBytes_bytes (hdr : FcgiHeader) : ofBytes hdr.bytes = hdr := rfl

@[simp] theorem length_bytes (hdr : FcgiHeader) : hdr.bytes.length = 8 := rfl

end FcgiHeader

structure FcgiRequest where
  requestId : UInt16
  role : UInt16
  flags : UInt8
  params : Option Stringtab
  data : Option EfBuffer
deriving Repr, DecidableEq

structure FcgiResponse where
  request : FcgiRequest
  headers : Option Headertab
  data : Option EfBuffer
deriving Repr, DecidableEq

/-! ## Two-byte numbers -/

theorem makeUint16_eq (x y : UInt8) : makeUint16 x y = x.toNat + 256 * y.toNat := by
  have hx := x.toNat_lt
  rw [makeUint16, Nat.or_comm, ← Nat.shiftLeft_add_eq_or_of_lt (by simpa using hx),
    Nat.shiftLeft_eq]
  omega

theorem makeUint16_split {n : Nat} (h : n < 2 ^ 16) :
    makeUint16 (UInt8.ofNat (n &&& 0xff)) (UInt8.ofNat (n >>> 8)) = n := by
  have hlo : n &&& 0xff = n % 256 := Nat.and_two_pow_sub_one_eq_mod n 8
  rw [makeUint16_eq, hlo, Nat.shiftRight_eq_div_pow, UInt8.toNat_ofNat', UInt8.toNat_ofNat']
  omega

/-! ## The wire format -/

structure Record where
  version : UInt8
  type : UInt8
  requestId : Nat
  content : Bytes
  padding : Bytes
  reserved : UInt8
deriving Repr, DecidableEq

namespace Record

structure Valid (r : Record) : Prop where
  requestId_lt : r.requestId < 2 ^ 16
  content_lt : r.content.length < 2 ^ 16
  padding_lt : r.padding.length < 2 ^ 8

def header (r : Record) : FcgiHeader :=
  ⟨r.version, r.type, UInt8.ofNat (r.requestId >>> 8), UInt8.ofNat (r.requestId &&& 0xff),
    UInt8.ofNat (r.content.length >>> 8), UInt8.ofNat (r.content.length &&& 0xff),
    UInt8.ofNat r.padding.length, r.reserved⟩

def encode (r : Record) : Bytes := r.header.bytes ++ r.content ++ r.padding

def parse (bs : Bytes) : Option (Record × Bytes) :=
  let hdr := FcgiHeader.ofBytes bs
  let rest := bs.drop 8
  if 8 ≤ bs.length ∧ hdr.contentLength + hdr.paddingLength.toNat ≤ rest.length then
    some (⟨hdr.version, hdr.type, hdr.requestId, rest.take hdr.contentLength,
        (rest.drop hdr.contentLength).take hdr.paddingLength.toNat, hdr.reserved⟩,
      rest.drop (hdr.contentLength + hdr.paddingLength.toNat))
  else none

def parseAllFrom : Nat → Bytes → Option (List Record)
  | _, [] => some []
  | 0, _ => none
  | fuel + 1, bs => do
      let (r, rest) ← parse bs
      let rs ← parseAllFrom fuel rest
      pure (r :: rs)

/-- Parse a byte string as records and nothing else. -/
def parseAll (bs : Bytes) : Option (List Record) := parseAllFrom bs.length bs

theorem Valid.contentLength {r : Record} (h : r.Valid) :
    r.header.contentLength = r.content.length := makeUint16_split h.content_lt

theorem Valid.requestId {r : Record} (h : r.Valid) : r.header.requestId = r.requestId :=
  makeUint16_split h.requestId_lt

theorem Valid.paddingLength {r : Record} (h : r.Valid) :
    r.header.paddingLength.toNat = r.padding.length := by
  have := h.padding_lt
  rw [header, UInt8.toNat_ofNat']
  omega

theorem ofBytes_encode (r : Record) (rest : Bytes) :
    FcgiHeader.ofBytes (r.encode ++ rest) = r.header := rfl

theorem length_encode (r : Record) :
    r.encode.length = 8 + r.content.length + r.padding.length := by
  simp [encode, Nat.add_assoc]

theorem Valid.parse_encode {r : Record} (h : r.Valid) (rest : Bytes) :
    parse (r.encode ++ rest) = some (r, rest) := by
  have hdrop : (r.encode ++ rest).drop 8 = r.content ++ (r.padding ++ rest) := by
    rw [encode, List.append_assoc, List.append_assoc]
    rfl
  have hlen := r.length_encode
  unfold parse
  simp only [ofBytes_encode, hdrop, h.contentLength, h.requestId, h.paddingLength]
  rw [if_pos (by simp only [List.length_append]; omega), List.take_left, List.drop_left,
    List.take_left, ← List.drop_drop, List.drop_left, List.drop_left]
  rfl

theorem parseAllFrom_encode {rs : List Record} (h : ∀ r ∈ rs, r.Valid) {fuel : Nat}
    (hfuel : rs.length ≤ fuel) : parseAllFrom fuel (rs.flatMap encode) = some rs := by
  induction rs generalizing fuel with
  | nil => cases fuel <;> rfl
  | cons r rs ih =>
      obtain ⟨fuel, rfl⟩ := Nat.exists_eq_add_of_le' (show 1 ≤ fuel by
        rw [List.length_cons] at hfuel
        omega)
      have hne : r.encode ++ rs.flatMap encode ≠ [] := by simp [encode, FcgiHeader.bytes]
      have hrest := ih (fun r' hr' => h r' (List.mem_cons_of_mem r hr'))
        (show rs.length ≤ fuel by simpa using hfuel)
      rw [List.flatMap_cons, parseAllFrom]
      · rw [(h r (by simp)).parse_encode]
        simp [hrest]
      · exact hne

theorem length_le_length_encode (rs : List Record) : rs.length ≤ (rs.flatMap encode).length := by
  induction rs with
  | nil => exact Nat.zero_le _
  | cons r rs ih =>
      rw [List.flatMap_cons, List.length_append, length_encode, List.length_cons]
      omega

/-- Every encoded list of records parses back to itself. -/
theorem parseAll_encode {rs : List Record} (h : ∀ r ∈ rs, r.Valid) :
    parseAll (rs.flatMap encode) = some rs :=
  parseAllFrom_encode h (length_le_length_encode rs)

end Record

end EFramework
