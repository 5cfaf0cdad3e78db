/-
The records of the FastCGI protocol (sapi/cgi/fastcgi.h): a header of eight
bytes, the content and the padding.  A stream is read record by record, and
reading gives back the records that were put together.
-/
import Mathlib.Data.List.Basic
import Mathlib.Data.UInt
import Mathlib.Tactic.Ring

namespace PhpEngine

open List

/-- `fcgi_request_type`. -/
inductive FcgiRequestType where
  | beginRequest
  | abortRequest
  | endRequest
  | params
  | stdin
  | stdout
  | stderr
  | data
  | getValues
  | getValuesResult
deriving Repr, DecidableEq

namespace FcgiRequestType

def code : FcgiRequestType → UInt8
  | beginRequest => 1
  | abortRequest => 2
  | endRequest => 3
  | params => 4
  | stdin => 5
  | stdout => 6
  | stderr => 7
  | data => 8
  | getValues => 9
  | getValuesResult => 10

def ofCode (b : UInt8) : Option FcgiRequestType :=
  [beginRequest, abortRequest, endRequest, params, stdin, stdout, stderr, data,
    getValues, getValuesResult].find? fun type => type.code == b

@[simp] theorem ofCode_code (type : FcgiRequestType) : ofCode type.code = some type := by
  cases type <;> rfl

theorem code_inj {type type' : FcgiRequestType} (h : type.code = type'.code) : type = type' := by
  have hof := congrArg ofCode h
  rw [ofCode_code, ofCode_code] at hof
  exact Option.some.inj hof

end FcgiRequestType

/-- `FCGI_VERSION_1` -/
def fcgiVersion1 : UInt8 := 1

/-- `FCGI_MAX_LENGTH` -/
def fcgiMaxLength : Nat := 0xffff

/-- `sizeof(fcgi_header)` -/
def sizeofHeader : Nat := 8

/-- A record.  The header has two bytes for the length of the content and one
for the length of the padding. -/
structure FcgiRecord where
  type : FcgiRequestType
  requestId : Nat
  content : List UInt8
  padding : List UInt8
  requestId_lt : requestId < 2 ^ 16
  content_lt : content.length < 2 ^ 16
  padding_lt : padding.length < 2 ^ 8
deriving DecidableEq

/-- The eight bytes of `fcgi_header`. -/
def headerBytes (type : UInt8) (id len pad : Nat) : List UInt8 :=
  [fcgiVersion1, type, UInt8.ofNat (id >>> 8), UInt8.ofNat id,
    UInt8.ofNat (len >>> 8), UInt8.ofNat len, UInt8.ofNat pad, 0]

namespace FcgiRecord

/-- The record on the wire. -/
def encode (r : FcgiRecord) : List UInt8 :=
  headerBytes r.type.code r.requestId r.content.length r.padding.length ++ (r.content ++ r.padding)

def size (r : FcgiRecord) : Nat :=
  sizeofHeader + r.content.length + r.padding.length

@[simp] theorem length_encode (r : FcgiRecord) : r.encode.length = r.size := by
  simp only [encode, headerBytes, size, sizeofHeader, length_append, length_cons, length_nil]
  omega

end FcgiRecord

/-- Two bytes of the header as one number. -/
def ofBytes (b1 b0 : UInt8) : Nat :=
  b1.toNat * 2 ^ 8 + b0.toNat

theorem ofBytes_lt (b1 b0 : UInt8) : ofBytes b1 b0 < 2 ^ 16 := by
  have h1 := b1.toNat_lt
  have h0 := b0.toNat_lt
  rw [ofBytes]
  omega

theorem ofBytes_bytes {n : Nat} (h : n < 2 ^ 16) :
    ofBytes (UInt8.ofNat (n >>> 8)) (UInt8.ofNat n) = n := by
  rw [ofBytes, UInt8.toNat_ofNat', UInt8.toNat_ofNat', Nat.shiftRight_eq_div_pow]
  omega

/-- The first record of a stream, and what is behind it. -/
def readRecord (bytes : List UInt8) : Option (FcgiRecord × List UInt8) :=
  match bytes with
  | version :: type :: id1 :: id0 :: len1 :: len0 :: pad :: _ :: rest =>
    match FcgiRequestType.ofCode type with
    | none => none
    | some type =>
      if version = fcgiVersion1 ∧ ofBytes len1 len0 + pad.toNat ≤ rest.length then
        some (⟨type, ofBytes id1 id0, rest.take (ofBytes len1 len0),
          (rest.drop (ofBytes len1 len0)).take pad.toNat,
          ofBytes_lt id1 id0,
          Nat.lt_of_le_of_lt (length_take_le _ _) (ofBytes_lt len1 len0),
          Nat.lt_of_le_of_lt (length_take_le _ _) pad.toNat_lt⟩,
          rest.drop (ofBytes len1 len0 + pad.toNat))
      else none
  | _ => none

/-- The records of a stream.  Every record takes at least its header. -/
def readRecords : Nat → List UInt8 → Option (List FcgiRecord)
  | _, [] => some []
  | 0, _ :: _ => none
  | fuel + 1, bytes => do
      let (r, rest) ← readRecord bytes
      return r :: (← readRecords fuel rest)

def parseRecords (bytes : List UInt8) : Option (List FcgiRecord) :=
  readRecords bytes.length bytes

def encodeRecords (rs : List FcgiRecord) : List UInt8 :=
  rs.flatMap FcgiRecord.encode

@[simp] theorem encodeRecords_nil : encodeRecords [] = [] :=
  rfl

@[simp] theorem encodeRecords_cons (r : FcgiRecord) (rs : List FcgiRecord) :
    encodeRecords (r :: rs) = r.encode ++ encodeRecords rs :=
  flatMap_cons

@[simp] theorem encodeRecords_append (rs rs' : List FcgiRecord) :
    encodeRecords (rs ++ rs') = encodeRecords rs ++ encodeRecords rs' :=
  flatMap_append

theorem readRecord_encode (r : FcgiRecord) (rest : List UInt8) :
    readRecord (r.encode ++ rest) = some (r, rest) := by
  obtain ⟨type, id, content, padding, hid, hcontent, hpadding⟩ := r
  have hpad : (UInt8.ofNat padding.length).toNat = padding.length := by
    rw [UInt8.toNat_ofNat', Nat.mod_eq_of_lt hpadding]
  have hlong : content.length + padding.length ≤ (content ++ (padding ++ rest)).length := by
    simp only [length_append]
    omega
  simp only [FcgiRecord.encode, headerBytes, cons_append, nil_append,
    append_assoc, readRecord, FcgiRequestType.ofCode_code,
    ofBytes_bytes hid, ofBytes_bytes hcontent, hpad, hlong, and_self,
    ↓reduceIte, take_left, drop_left, ← drop_drop]

theorem readRecords_encodeRecords (rs : List FcgiRecord) {fuel : Nat} (hfuel : rs.length ≤ fuel) :
    readRecords fuel (encodeRecords rs) = some rs := by
  induction rs generalizing fuel with
  | nil => cases fuel <;> rfl
  | cons r rs ih =>
    cases fuel with
    | zero => cases hfuel
    | succ fuel =>
      have hread := readRecord_encode r (encodeRecords rs)
      rw [encodeRecords_cons]
      cases hbytes : r.encode ++ encodeRecords rs with
      | nil =>
        rw [hbytes] at hread
        cases hread
      | cons b bytes =>
        have hrest := ih (Nat.le_of_succ_le_succ hfuel)
        rw [hbytes] at hread
        simp only [readRecords, hread, hrest, Option.bind_eq_bind,
          Option.bind_some, Option.pure_def]

theorem length_le_encodeRecords (rs : List FcgiRecord) : rs.length ≤ (encodeRecords rs).length := by
  induction rs with
  | nil => exact le_refl 0
  | cons r rs ih =>
    rw [encodeRecords_cons, length_append, length_cons,
      FcgiRecord.length_encode, FcgiRecord.size, sizeofHeader]
    omega

/-- What was put together of records is read as these records. -/
theorem parseRecords_encodeRecords (rs : List FcgiRecord) :
    parseRecords (encodeRecords rs) = some rs :=
  readRecords_encodeRecords rs (length_le_encodeRecords rs)

end PhpEngine
