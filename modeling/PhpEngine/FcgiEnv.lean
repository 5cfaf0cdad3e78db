/-
The environment of a FastCGI request: `fcgi_get_params` stores the name/value
pairs of a record, `fcgi_getenv` and `fcgi_putenv` look names up.  A name is
hashed where it lies, in the middle of a record on the one side and in a C
string on the other.
-/
import PhpEngine.FcgiHash
import PhpEngine.MachineInt
import PhpEngine.Memory

namespace PhpEngine

open List Option

/-- The conversion of a character to `unsigned int`; a plain `char` has a
sign. -/
def charToUint (signed : Bool) (b : UInt8) : Nat :=
  if signed ∧ 128 ≤ b.toNat then b.toNat + (uintMod - 256) else b.toNat

/-- `FCGI_HASH_FUNC` of the memory at a name. -/
def fcgiHashFunc (signed : Bool) (var : Nat → UInt8) (varLen : Nat) : Nat :=
  if varLen < 3 then varLen
  else (charToUint signed (var 3) * 4 + charToUint signed (var (varLen - 2)) * 16 +
    charToUint signed (var (varLen - 1)) * 4 + varLen) % uintMod

/-- The memory at a C string. -/
def cText (bytes : List UInt8) : Nat → UInt8 :=
  fun i => bytes.getD i 0

/-- `FCGI_HASH_FUNC` of a name in a C string. -/
def nameHash (name : List UInt8) : Nat :=
  fcgiHashFunc true (cText name) name.length

/-- A length in one byte or in four; the four are read only if there is
something behind them.  The result is the length and the place behind it. -/
def readLength (buf : Nat → UInt8) (stop p : Nat) : Option (Nat × Nat) :=
  if 128 ≤ (buf p).toNat then
    if stop ≤ p + 1 + 3 then none
    else some (((buf p).toNat - 128) * 2 ^ 24 + (buf (p + 1)).toNat * 2 ^ 16 +
      (buf (p + 2)).toNat * 2 ^ 8 + (buf (p + 3)).toNat, p + 4)
  else some ((buf p).toNat, p + 1)

def getParamsLoop (buf : Nat → UInt8) (stop : Nat) : Nat → FcgiHash → Nat → Bool × FcgiHash
  | 0, env, _ => (true, env)
  | fuel + 1, env, p =>
    if p < stop then
      match readLength buf stop p with
      | none => (false, env)
      | some (nameLen, p) =>
        if stop ≤ p then (false, env)
        else
          match readLength buf stop p with
          | none => (false, env)
          | some (valLen, p) =>
            if stop - p < nameLen + valLen then (false, env)
            else
              getParamsLoop buf stop fuel (env.fcgiHashSet
                  (fcgiHashFunc false (fun i => buf (p + i)) nameLen)
                  (Memory.slice buf p nameLen)
                  (Memory.slice buf (p + nameLen) valLen))
                (p + (nameLen + valLen))
    else (true, env)

/-- `fcgi_get_params`; every pair takes at least two bytes. -/
def fcgiGetParams (env : FcgiHash) (buf : Nat → UInt8) (p stop : Nat) : Bool × FcgiHash :=
  getParamsLoop buf stop (stop - p) env p

/-- `fcgi_getenv` -/
def fcgiGetenv (env : FcgiHash) (var : List UInt8) : Option (List UInt8) :=
  env.fcgiHashGet (nameHash var) var

/-- `fcgi_putenv`; the value is a C string or `NULL`. -/
def fcgiPutenv (env : FcgiHash) (var : List UInt8) (val : Option (List UInt8)) : FcgiHash :=
  match val with
  | none => env.fcgiHashDel (nameHash var) var
  | some val =>
    env.fcgiHashSet (nameHash var) var (val.takeWhile fun b => b ≠ 0)

/-- A name/value pair that the lengths of the protocol can describe. -/
structure FcgiParam where
  name : List UInt8
  value : List UInt8
  name_lt : name.length < 2 ^ 31
  value_lt : value.length < 2 ^ 31

/-- A length in the protocol. -/
def encodeLength (n : Nat) : List UInt8 :=
  if n < 128 then [UInt8.ofNat n]
  else [UInt8.ofNat (n / 2 ^ 24 + 128), UInt8.ofNat (n / 2 ^ 16),
    UInt8.ofNat (n / 2 ^ 8), UInt8.ofNat n]

/-- A pair in the protocol. -/
def FcgiParam.encode (q : FcgiParam) : List UInt8 :=
  encodeLength q.name.length ++ encodeLength q.value.length ++ (q.name ++ q.value)

def encodeParams (qs : List FcgiParam) : List UInt8 :=
  qs.flatMap FcgiParam.encode

/-- The hash value of a name that stands in front of `tail`. -/
def recordHash (name tail : List UInt8) : Nat :=
  fcgiHashFunc false (cText (name ++ tail)) name.length

/-- The pairs of a record with the hash values under which they are stored;
`behind` is the byte behind the record. -/
def filed (behind : UInt8) : List FcgiParam → List (Nat × FcgiParam)
  | [] => []
  | q :: qs => (recordHash q.name (q.value ++ encodeParams qs ++ [behind]), q) :: filed behind qs

def storeAll (env : FcgiHash) (entries : List (Nat × FcgiParam)) : FcgiHash :=
  entries.foldl (fun env e => env.fcgiHashSet e.1 e.2.name e.2.value) env

section Reading

variable {buf : Nat → UInt8} {stop p : Nat}

theorem length_encodeLength (n : Nat) : (encodeLength n).length = if n < 128 then 1 else 4 := by
  rw [encodeLength]
  split <;> rfl

theorem readLength_encodeLength (stop : Nat) {n : Nat} (hn : n < 2 ^ 31)
    (hbuf : Memory.slice buf p (encodeLength n).length = encodeLength n)
    (hstop : 128 ≤ n → p + 4 < stop) :
    readLength buf stop p = some (n, p + (encodeLength n).length) := by
  by_cases hsmall : n < 128
  · have hbyte : buf p = UInt8.ofNat n := by
      rw [encodeLength, if_pos hsmall] at hbuf
      exact singleton_inj.mp hbuf
    have hvalue : (buf p).toNat = n := by
      rw [hbyte, UInt8.toNat_ofNat']
      omega
    rw [readLength, hvalue, if_neg (Nat.not_le_of_lt hsmall), length_encodeLength, if_pos hsmall]
  · have hbytes : [buf p, buf (p + 1), buf (p + 2), buf (p + 3)] =
        [UInt8.ofNat (n / 2 ^ 24 + 128), UInt8.ofNat (n / 2 ^ 16),
          UInt8.ofNat (n / 2 ^ 8), UInt8.ofNat n] := by
      rw [encodeLength, if_neg hsmall] at hbuf
      exact hbuf
    simp only [List.cons.injEq, and_true] at hbytes
    obtain ⟨h0, h1, h2, h3⟩ := hbytes
    have hhigh : (buf p).toNat = n / 2 ^ 24 + 128 := by
      rw [h0, UInt8.toNat_ofNat']
      omega
    rw [readLength, if_pos (by omega), if_neg (by omega), length_encodeLength,
      if_neg hsmall, hhigh, h1, h2, h3]
    simp only [UInt8.toNat_ofNat', Option.some.injEq, Prod.mk.injEq, and_true]
    omega

theorem fcgiHashFunc_congr {signed : Bool} {f g : Nat → UInt8} {n : Nat}
    (h : ∀ i, i ≤ n → f i = g i) : fcgiHashFunc signed f n = fcgiHashFunc signed g n := by
  rw [fcgiHashFunc, fcgiHashFunc]
  split
  · rfl
  · rw [h 3 (by omega), h (n - 2) (by omega), h (n - 1) (by omega)]

theorem getD_slice {i n : Nat} (hi : i < n) : (Memory.slice buf p n).getD i 0 = buf (p + i) := by
  simp [Memory.slice, getD_eq_getElem?_getD, hi]

section

variable (qs : List FcgiParam) (env : FcgiHash)
  (hbuf : Memory.slice buf p (encodeParams qs).length = encodeParams qs)
include qs env hbuf

/-- Reading whole pairs stores all of them and goes on behind them. -/
theorem getParamsLoop_pairs {fuel next : Nat} (hnext : next = p + (encodeParams qs).length)
    (hstop : next ≤ stop) (hfuel : (encodeParams qs).length ≤ fuel) :
    getParamsLoop buf stop fuel env p = getParamsLoop buf stop
      (fuel - qs.length) (storeAll env (filed (buf next) qs)) next := by
  induction qs generalizing fuel env p with
  | nil =>
    rw [hnext]
    rfl
  | cons q qs ih =>
    have hcons : encodeParams (q :: qs) =
        encodeLength q.name.length ++ (encodeLength q.value.length ++
          (q.name ++ (q.value ++ encodeParams qs))) := by
      simp [encodeParams, FcgiParam.encode]
    rw [hcons] at hbuf hnext hfuel
    obtain ⟨hname, hbuf⟩ := Memory.slice_append_eq hbuf
    obtain ⟨hvalue, hbuf⟩ := Memory.slice_append_eq hbuf
    obtain ⟨hn, htail⟩ := Memory.slice_append_eq hbuf
    obtain ⟨hv, hrest⟩ := Memory.slice_append_eq htail
    have hlen' := length_encodeLength q.value.length
    simp only [length_append] at hnext hfuel
    have hpos' : 0 < (encodeLength q.value.length).length := by
      rw [hlen']
      split <;> omega
    cases fuel with
    | zero => omega
    | succ fuel =>
      have hfirst := readLength_encodeLength stop q.name_lt hname (by omega)
      have hsecond := readLength_encodeLength stop q.value_lt hvalue (by omega)
      rw [getParamsLoop, if_pos (by omega), hfirst]
      dsimp only
      rw [if_neg (by omega), hsecond]
      dsimp only
      rw [if_neg (by omega), hn, hv]
      have hhash : fcgiHashFunc false (fun i => buf (p + (encodeLength q.name.length).length +
            (encodeLength q.value.length).length + i)) q.name.length =
          recordHash q.name (q.value ++ encodeParams qs ++ [buf next]) := by
        apply fcgiHashFunc_congr
        intro i hi
        have hlast : Memory.slice buf next 1 = [buf next] := rfl
        have hwhole : Memory.slice buf (p + (encodeLength q.name.length).length +
              (encodeLength q.value.length).length)
            (q.name ++ (q.value ++ encodeParams qs ++ [buf next])).length =
            q.name ++ (q.value ++ encodeParams qs ++ [buf next]) := by
          rw [length_append, Memory.slice_append, hn, length_append, Memory.slice_append, htail,
            length_singleton]
          congr 2
          rw [← hlast]
          congr 1
          rw [hnext, length_append]
          omega
        rw [cText, ← hwhole, getD_slice]
        simp only [length_append, length_singleton]
        omega
      rw [hhash]
      have hfuel' : (encodeParams qs).length ≤ fuel := by omega
      have hlast := ih (p := p + (encodeLength q.name.length).length +
        (encodeLength q.value.length).length + (q.name.length + q.value.length))
        (env.fcgiHashSet (recordHash q.name
          (q.value ++ encodeParams qs ++ [buf next])) q.name q.value)
        (by rw [← add_assoc]; exact hrest) (by omega) hfuel'
      rw [hlast, length_cons, Nat.succ_sub_succ]
      rfl

theorem fcgiGetParams_encodeParams :
    fcgiGetParams env buf p (p + (encodeParams qs).length) = (true, storeAll env
        (filed (buf (p + (encodeParams qs).length)) qs)) := by
  rw [fcgiGetParams, getParamsLoop_pairs qs env hbuf rfl le_rfl (by omega)]
  generalize p + (encodeParams qs).length - p - qs.length = fuel
  cases fuel with
  | zero => rfl
  | succ fuel => rw [getParamsLoop, if_neg (lt_irrefl _)]

end

/-- The part of a pair that a record ends with. -/
structure PartOf (part : List UInt8) (q : FcgiParam) : Prop where
  starts : part <+: q.encode
  some_bytes : part ≠ []
  not_all : part.length < q.encode.length

/-- What is in the buffer of something whose start it holds. -/
theorem slice_part {part l l' : List UInt8}
    (hbuf : Memory.slice buf p part.length = part) (hpart : part <+: l ++ l')
    (hlen : l.length ≤ part.length) : Memory.slice buf p l.length = l := by
  have hstart : l <+: part :=
    prefix_of_prefix_length_le (prefix_append l l') hpart hlen
  obtain ⟨tail, rfl⟩ := hstart
  exact (Memory.slice_append_eq hbuf).1

theorem readLength_part {part l : List UInt8} {n : Nat} (hn : n < 2 ^ 31)
    (hbuf : Memory.slice buf p part.length = part)
    (hpart : part <+: encodeLength n ++ l) (hne : part ≠ []) (hstop : stop = p + part.length) :
    readLength buf stop p = none ∨ ((encodeLength n).length ≤ part.length ∧
        readLength buf stop p = some (n, p + (encodeLength n).length) ∧
        (128 ≤ n → p + 4 < stop)) := by
  have hpos := length_pos_iff.mpr hne
  by_cases hsmall : n < 128
  · have hlen : (encodeLength n).length = 1 := by
      rw [length_encodeLength, if_pos hsmall]
    refine .inr ⟨by omega, readLength_encodeLength stop hn
      (slice_part hbuf hpart (by omega)) (by omega), by omega⟩
  · have hlen : (encodeLength n).length = 4 := by
      rw [length_encodeLength, if_neg hsmall]
    by_cases hshort : stop ≤ p + 4
    · -- the first of the four bytes is there
      left
      have hfirst : buf p = UInt8.ofNat (n / 2 ^ 24 + 128) := by
        obtain ⟨b, part', rfl⟩ := exists_cons_of_ne_nil hne
        have hhead : buf p = b := by
          have hone := slice_part (l := [b]) hbuf (prefix_refl ([b] ++ part')) (by simp)
          exact singleton_inj.mp hone
        rw [encodeLength, if_neg hsmall] at hpart
        rw [hhead]
        exact (cons_prefix_cons.mp hpart).1
      have hhigh : 128 ≤ (buf p).toNat := by
        rw [hfirst, UInt8.toNat_ofNat']
        omega
      rw [readLength, if_pos hhigh, if_pos (by omega)]
    · exact .inr ⟨by omega, readLength_encodeLength stop hn
        (slice_part hbuf hpart (by omega)) (by omega), by omega⟩

theorem getParamsLoop_part {part : List UInt8} {q : FcgiParam}
    (h : PartOf part q) (hbuf : Memory.slice buf p part.length = part)
    (hstop : stop = p + part.length) (fuel : Nat) (env : FcgiHash) :
    getParamsLoop buf stop (fuel + 1) env p = (false, env) := by
  have hpos := length_pos_iff.mpr h.some_bytes
  have hstarts := h.starts
  have hshort := h.not_all
  rw [FcgiParam.encode, append_assoc] at hstarts
  simp only [FcgiParam.encode, length_append] at hshort
  rw [getParamsLoop, if_pos (by omega)]
  rcases readLength_part q.name_lt hbuf hstarts h.some_bytes hstop with
    hnone | ⟨hlen, hname, -⟩
  · rw [hnone]
  rw [hname]
  dsimp only
  by_cases hend : stop ≤ p + (encodeLength q.name.length).length
  · rw [if_pos hend]
  rw [if_neg hend]
  -- behind the length of the name
  obtain ⟨part', rfl⟩ := prefix_of_prefix_length_le (prefix_append _ _) hstarts hlen
  rw [length_append] at hstop hshort
  have hstarts' := (prefix_append_right_inj _).mp hstarts
  have hbuf' := (Memory.slice_append_eq hbuf).2
  have hne' : part' ≠ [] := by
    rintro rfl
    rw [length_nil] at hstop
    omega
  have hstop' : stop = p + (encodeLength q.name.length).length + part'.length := by omega
  rcases readLength_part q.value_lt hbuf' hstarts' hne' hstop' with
    hnone | ⟨hlen', hvalue, -⟩
  · rw [hnone]
  rw [hvalue]
  dsimp only
  rw [if_pos (by omega)]

/-- The start of a list of pairs is whole pairs and at most a part of one. -/
theorem prefix_encodeParams {c : List UInt8} {qs : List FcgiParam} (h : c <+: encodeParams qs) :
    ∃ (g qs' : List FcgiParam) (part : List UInt8), qs = g ++ qs' ∧ c = encodeParams g ++ part ∧
      (part = [] ∨ ∃ q qs'', qs' = q :: qs'' ∧ PartOf part q) := by
  induction qs generalizing c with
  | nil =>
    have hnil : c = [] := prefix_nil.mp h
    exact ⟨[], [], [], rfl, hnil, .inl rfl⟩
  | cons q qs ih =>
    by_cases hlen : q.encode.length ≤ c.length
    · obtain ⟨c', rfl⟩ := prefix_of_prefix_length_le (prefix_append _ _) h hlen
      obtain ⟨g, qs', part, rfl, rfl, hpart⟩ :=
        ih ((prefix_append_right_inj _).mp h)
      refine ⟨q :: g, qs', part, rfl, ?_, hpart⟩
      rw [← append_assoc]
      rfl
    · have hstarts : c <+: q.encode := prefix_of_prefix_length_le h (prefix_append _ _) (by omega)
      by_cases hnil : c = []
      · exact ⟨[], q :: qs, [], rfl, hnil, .inl rfl⟩
      · exact ⟨[], q :: qs, c, rfl, rfl, .inr ⟨q, qs, rfl, hstarts, hnil, by omega⟩⟩

theorem fcgiGetParams_part {g : List FcgiParam} {part : List UInt8}
    {q : FcgiParam} (h : PartOf part q) (env : FcgiHash)
    (hbuf : Memory.slice buf p (encodeParams g ++ part).length = encodeParams g ++ part) :
    (fcgiGetParams env buf p (p + (encodeParams g ++ part).length)).1 = false := by
  obtain ⟨hpairs, hpart⟩ := Memory.slice_append_eq hbuf
  have hpos := length_pos_iff.mpr h.some_bytes
  have hmany : g.length ≤ (encodeParams g).length := by
    clear hbuf hpairs hpart
    induction g with
    | nil => exact Nat.zero_le _
    | cons q' g ih =>
      have hcons : encodeParams (q' :: g) = q'.encode ++ encodeParams g :=
        flatMap_cons
      have hlen := length_encodeLength q'.name.length
      rw [hcons, length_append, FcgiParam.encode, length_append, length_append, hlen, length_cons]
      split <;> omega
  rw [length_append, fcgiGetParams, getParamsLoop_pairs g env hpairs rfl (by omega) (by omega)]
  obtain ⟨fuel, hfuel⟩ : ∃ fuel,
      p + ((encodeParams g).length + part.length) - p - g.length = fuel + 1 :=
    ⟨_, (Nat.succ_pred_eq_of_pos (by omega)).symm⟩
  rw [hfuel, getParamsLoop_part h hpart (by omega)]

end Reading

/-- A name that is hashed alike in front of `tail` and in a C string: the
three places that are looked at have no byte with a sign, and the one that lies
behind a name of three bytes has a zero. -/
def HashedAlike (name tail : List UInt8) : Prop :=
  3 ≤ name.length → (name.length = 3 → tail.headD 0 = 0) ∧
    ∀ i ∈ [3, name.length - 2, name.length - 1], (name.getD i 0).toNat < 128

theorem cText_append_left (tail : List UInt8) {name : List UInt8} {i : Nat}
    (hi : i < name.length) : cText (name ++ tail) i = cText name i := by
  rw [cText, cText, getD_eq_getElem?_getD, getElem?_append_left hi, getD_eq_getElem?_getD]

theorem cText_append_length (name tail : List UInt8) :
    cText (name ++ tail) name.length = tail.headD 0 := by
  rw [cText, getD_eq_getElem?_getD, getElem?_append_right le_rfl, Nat.sub_self]
  cases tail <;> rfl

theorem cText_length (name : List UInt8) : cText name name.length = 0 := by
  simp [cText]

/-- Two sums of the hash function, one of them with signs. -/
theorem hash_sums {x x' y z n : Nat} (hx : x < 256) (hx' : x' < 256) (hy : y < 256) (hz : z < 256) :
    (x * 4 + y * 16 + z * 4 + n) % 2 ^ 32 = ((if 128 ≤ x' then x' + (2 ^ 32 - 256) else x') * 4 +
          (if 128 ≤ y then y + (2 ^ 32 - 256) else y) * 16 +
          (if 128 ≤ z then z + (2 ^ 32 - 256) else z) * 4 + n) % 2 ^ 32 ↔
      x = x' ∧ x' < 128 ∧ y < 128 ∧ z < 128 := by
  split <;> split <;> split <;> omega

/-- The two hash values are the same exactly for the names that are hashed
alike. -/
theorem recordHash_eq_iff (name tail : List UInt8) :
    recordHash name tail = nameHash name ↔ HashedAlike name tail := by
  rw [recordHash, nameHash, HashedAlike]
  by_cases hshort : name.length < 3
  · simp only [fcgiHashFunc, hshort, if_true, true_iff]
    intro hlong
    omega
  have hlong : 3 ≤ name.length := Nat.le_of_not_lt hshort
  have hthird : cText (name ++ tail) 3 = cText name 3 ∨ (name.length = 3 ∧ cText name 3 = 0 ∧
        cText (name ++ tail) 3 = tail.headD 0) := by
    by_cases hthree : name.length = 3
    · refine .inr ⟨hthree, ?_, ?_⟩
      · rw [← hthree]
        exact cText_length name
      · rw [← hthree]
        exact cText_append_length name tail
    · exact .inl (cText_append_left tail (by omega))
  have hsums := hash_sums (n := name.length)
    (cText (name ++ tail) 3).toNat_lt (cText name 3).toNat_lt
    (cText name (name.length - 2)).toNat_lt
    (cText name (name.length - 1)).toNat_lt
  have hleft : fcgiHashFunc false (cText (name ++ tail)) name.length =
      ((cText (name ++ tail) 3).toNat * 4 + (cText name (name.length - 2)).toNat * 16 +
        (cText name (name.length - 1)).toNat * 4 + name.length) % 2 ^ 32 := by
    have hsecond := cText_append_left tail (by omega : name.length - 2 < name.length)
    have hfirst := cText_append_left tail (by omega : name.length - 1 < name.length)
    rw [fcgiHashFunc, if_neg hshort, hsecond, hfirst]
    rfl
  have hright : fcgiHashFunc true (cText name) name.length = ((if 128 ≤ (cText name 3).toNat then
          (cText name 3).toNat + (2 ^ 32 - 256) else (cText name 3).toNat) * 4 +
        (if 128 ≤ (cText name (name.length - 2)).toNat then
          (cText name (name.length - 2)).toNat + (2 ^ 32 - 256)
          else (cText name (name.length - 2)).toNat) * 16 +
        (if 128 ≤ (cText name (name.length - 1)).toNat then
          (cText name (name.length - 1)).toNat + (2 ^ 32 - 256)
          else (cText name (name.length - 1)).toNat) * 4 + name.length) % 2 ^ 32 := by
    rw [fcgiHashFunc, if_neg hshort]
    simp only [charToUint, true_and]
    rfl
  rw [hleft, hright, hsums]
  have hall : (∀ i ∈ [3, name.length - 2, name.length - 1],
      (name.getD i 0).toNat < 128) ↔ (cText name 3).toNat < 128 ∧
        (cText name (name.length - 2)).toNat < 128 ∧
        (cText name (name.length - 1)).toNat < 128 := by
    simp [cText]
  rw [hall]
  constructor
  · rintro ⟨heq, hbounds⟩ -
    refine ⟨fun hthree => ?_, hbounds⟩
    rcases hthird with hthird | ⟨-, hzero, hhead⟩
    · rw [← cText_append_length name tail, hthree, hthird, ← hthree, cText_length]
    · rw [← hhead, UInt8.toNat_inj.mp heq, hzero]
  · intro hcond
    obtain ⟨hhead, hbounds⟩ := hcond hlong
    refine ⟨?_, hbounds⟩
    rcases hthird with hthird | ⟨hthree, hzero, heq⟩
    · rw [hthird]
    · rw [heq, hhead hthree, hzero]

section Map

variable {env : FcgiHash} {chains : Nat → List Nat} {m : List UInt8 → Option (List UInt8)}

/-- The environment is the map `m`: looking up a name gives its value, and the
walk over the environment meets every name that has a value once. -/
structure IsMap (env : FcgiHash) (m : List UInt8 → Option (List UInt8)) :
    Prop where
  getenv : ∀ name, name ≠ [] → fcgiGetenv env name = m name
  once : (env.fcgiHashApply.map Prod.fst).Nodup
  visits : ∀ name val, (name, val) ∈ env.fcgiHashApply ↔ m name = some val

/-- The value last stored for every name; `none` is a deletion. -/
def lastStored (stores : List (List UInt8 × Option (List UInt8))) :
    List UInt8 → Option (List UInt8) :=
  stores.foldl (fun m s name => if name = s.1 then s.2 else m name) fun _ => none

/-- What a pair of a record stores. -/
def FcgiParam.store (q : FcgiParam) : List UInt8 × Option (List UInt8) :=
  (q.name, some q.value)

/-- What a call of `fcgi_putenv` stores. -/
def putenvStore (call : List UInt8 × Option (List UInt8)) : List UInt8 × Option (List UInt8) :=
  (call.1, call.2.map fun val => val.takeWhile fun b => b ≠ 0)

def putenvs (env : FcgiHash) (calls : List (List UInt8 × Option (List UInt8))) : FcgiHash :=
  calls.foldl (fun env call => fcgiPutenv env call.1 call.2) env

/-- The walk meets no name twice if no two live buckets have the same name. -/
theorem nodup_visits_iff (hinv : FcgiHashInv env chains) : (env.fcgiHashApply.map Prod.fst).Nodup ↔
      ∀ (a a' : Nat) (b b' : FcgiHashBucket), env.buckets[a]? = some b →
        env.buckets[a']? = some b' → b.val ≠ none → b'.val ≠ none → b.var = b'.var → a = a' := by
  have hnames : env.fcgiHashApply.map Prod.fst = (env.buckets.filterMap
      fun b => b.val.map fun _ => b.var).reverse := by
    rw [hinv.apply_eq, map_filterMap, ← filterMap_reverse]
    congr 1
    funext b
    rw [FcgiHashInv.visit, Option.map_map]
    rfl
  rw [hnames, nodup_reverse, List.Nodup, pairwise_filterMap, pairwise_iff_getElem]
  constructor
  · intro hpair a a' b b' hb hb' hval hval' hvar
    obtain ⟨ha, rfl⟩ := List.getElem?_eq_some_iff.mp hb
    obtain ⟨ha', rfl⟩ := List.getElem?_eq_some_iff.mp hb'
    obtain ⟨v, hv⟩ := ne_none_iff_exists'.mp hval
    obtain ⟨v', hv'⟩ := ne_none_iff_exists'.mp hval'
    rcases Nat.lt_trichotomy a a' with hlt | heq | hlt
    · exact absurd hvar (hpair a a' ha ha' hlt _ (by rw [hv]; rfl) _ (by rw [hv']; rfl))
    · exact heq
    · exact absurd hvar.symm (hpair a' a ha' ha hlt _ (by rw [hv']; rfl) _ (by rw [hv]; rfl))
  · intro hunique a a' ha ha' hlt var hvar var' hvar' heq
    obtain ⟨v, hv, rfl⟩ := map_eq_some_iff.mp hvar
    obtain ⟨v', hv', rfl⟩ := map_eq_some_iff.mp hvar'
    exact ne_of_lt hlt (hunique a a' _ _ (getElem?_eq_getElem ha)
      (getElem?_eq_getElem ha') (by simp [hv]) (by simp [hv']) heq)

/-- Every value is stored under the hash value of its name as a C string. -/
structure Filed (env : FcgiHash) (m : List UInt8 → Option (List UInt8)) :
    Prop where
  inv : ∃ chains, FcgiHashInv env chains
  live : ∀ hashValue name val, env.Live hashValue name val ↔
    hashValue = nameHash name ∧ m name = some val

theorem Filed.isMap (h : Filed env m) : IsMap env m := by
  obtain ⟨chains, hinv⟩ := h.inv
  refine ⟨fun name _ => ?_, ?_, fun name val => ?_⟩
  · apply Option.ext
    intro val
    rw [fcgiGetenv, hinv.get_eq_some_iff, h.live]
    simp
  · rw [nodup_visits_iff hinv]
    intro a a' b b' hb hb' hval hval' hvar
    obtain ⟨v, hv⟩ := ne_none_iff_exists'.mp hval
    obtain ⟨v', hv'⟩ := ne_none_iff_exists'.mp hval'
    have hhash := ((h.live _ _ _).mp ⟨a, b, hb, rfl, rfl, hv⟩).1
    have hhash' := ((h.live _ _ _).mp ⟨a', b', hb', rfl, rfl, hv'⟩).1
    refine hinv.unique a a' b b' hb hb' hval hval' ?_ hvar
    rw [hhash, hhash', hvar]
  · rw [hinv.mem_apply]
    simp [h.live]

theorem Filed.set (h : Filed env m) (name val : List UInt8) :
    Filed (env.fcgiHashSet (nameHash name) name val)
      fun n => if n = name then some val else m n := by
  obtain ⟨chains, hinv⟩ := h.inv
  refine ⟨hinv.set_inv _ _ _, fun hashValue n v => ?_⟩
  rw [hinv.set_live]
  by_cases hname : n = name
  · subst hname
    by_cases hhash : hashValue = nameHash n
    · simp [hhash, eq_comm]
    · simp [hhash, h.live]
  · simp [hname, h.live]

theorem Filed.del (h : Filed env m) (name : List UInt8) :
    Filed (env.fcgiHashDel (nameHash name) name) fun n => if n = name then none else m n := by
  obtain ⟨chains, hinv⟩ := h.inv
  refine ⟨hinv.del_inv _ _, fun hashValue n v => ?_⟩
  rw [hinv.del_live, h.live]
  by_cases hname : n = name
  · subst hname
    rw [if_pos rfl]
    constructor
    · rintro ⟨hkey, hhash, -⟩
      exact absurd ⟨hhash, rfl⟩ hkey
    · rintro ⟨-, hnone⟩
      cases hnone
  · simp [hname]

theorem Filed.putenvs (h : Filed env m) (calls : List (List UInt8 × Option (List UInt8))) :
    Filed (putenvs env calls) ((calls.map putenvStore).foldl
      (fun m s name => if name = s.1 then s.2 else m name) m) := by
  induction calls generalizing env m with
  | nil => exact h
  | cons call calls ih =>
    obtain ⟨name, _ | val⟩ := call
    · exact ih (h.del name)
    · exact ih (h.set name _)

theorem Filed.storeAll (h : Filed env m) {entries : List (Nat × FcgiParam)}
    (hentries : ∀ e ∈ entries, e.1 = nameHash e.2.name) :
    Filed (storeAll env entries) ((entries.map fun e => e.2.store).foldl
      (fun m s name => if name = s.1 then s.2 else m name) m) := by
  induction entries generalizing env m with
  | nil => exact h
  | cons e entries ih =>
    obtain ⟨he, hrest⟩ := forall_mem_cons.mp hentries
    have hset := h.set e.2.name e.2.value
    rw [← he] at hset
    exact ih hset hrest

theorem init_filed : Filed FcgiHash.init fun _ => none := by
  refine ⟨⟨_, FcgiHash.init_inv⟩, fun hashValue name val => ?_⟩
  simp [FcgiHash.Live, FcgiHash.init]

/-- A value is stored under another hash value than its name has. -/
structure Misfiled (env : FcgiHash) : Prop where
  inv : ∃ chains, FcgiHashInv env chains
  live : ∃ hashValue name val, env.Live hashValue name val ∧ hashValue ≠ nameHash name ∧ name ≠ []

theorem Misfiled.set (h : Misfiled env) (hashValue : Nat)
    (name val : List UInt8) : Misfiled (env.fcgiHashSet hashValue name val) := by
  obtain ⟨chains, hinv⟩ := h.inv
  obtain ⟨hv, n, v, hlive, hne, hnil⟩ := h.live
  refine ⟨hinv.set_inv _ _ _, ?_⟩
  by_cases hkey : hv = hashValue ∧ n = name
  · exact ⟨hv, n, val, by rw [hinv.set_live, if_pos hkey], hne, hnil⟩
  · exact ⟨hv, n, v, by rw [hinv.set_live, if_neg hkey]; exact hlive, hne, hnil⟩

theorem Misfiled.del (h : Misfiled env) (name : List UInt8) :
    Misfiled (env.fcgiHashDel (nameHash name) name) := by
  obtain ⟨chains, hinv⟩ := h.inv
  obtain ⟨hv, n, v, hlive, hne, hnil⟩ := h.live
  refine ⟨hinv.del_inv _ _, hv, n, v, ?_, hne, hnil⟩
  rw [hinv.del_live]
  refine ⟨?_, hlive⟩
  rintro ⟨hhash, rfl⟩
  exact hne hhash

theorem Misfiled.putenvs (h : Misfiled env) (calls : List (List UInt8 × Option (List UInt8))) :
    Misfiled (putenvs env calls) := by
  induction calls generalizing env with
  | nil => exact h
  | cons call calls ih =>
    obtain ⟨name, _ | val⟩ := call
    · exact ih (h.del name)
    · exact ih (h.set _ name _)

theorem Misfiled.storeAll (h : Misfiled env)
    (entries : List (Nat × FcgiParam)) : Misfiled (storeAll env entries) := by
  induction entries generalizing env with
  | nil => exact h
  | cons e entries ih => exact ih (h.set _ _ _)

/-- An entry with another hash value is there after all entries. -/
theorem storeAll_misfiled (hinv : FcgiHashInv env chains)
    {entries : List (Nat × FcgiParam)} {e : Nat × FcgiParam}
    (he : e ∈ entries) (hhash : e.1 ≠ nameHash e.2.name)
    (hname : e.2.name ≠ []) : Misfiled (storeAll env entries) := by
  induction entries generalizing env chains with
  | nil => cases he
  | cons e' entries ih =>
    obtain ⟨chains', hinv'⟩ := hinv.set_inv e'.1 e'.2.name e'.2.value
    rcases mem_cons.mp he with rfl | he
    · have hset : Misfiled (env.fcgiHashSet e.1 e.2.name e.2.value) := by
        refine ⟨⟨chains', hinv'⟩, e.1, e.2.name, e.2.value, ?_, hhash, hname⟩
        rw [hinv.set_live, if_pos ⟨rfl, rfl⟩]
      exact hset.storeAll entries
    · exact ih hinv' he

/-- An entry under another hash value is not the value that is looked up; and
if there is one more of the name, the walk meets the name twice. -/
theorem Misfiled.not_isMap (h : Misfiled env)
    (m : List UInt8 → Option (List UInt8)) : ¬ IsMap env m := by
  obtain ⟨chains, hinv⟩ := h.inv
  obtain ⟨hv, name, val, hlive, hne, hnil⟩ := h.live
  intro hmap
  have hvisit := (hmap.visits name val).mp (hinv.mem_apply.mpr ⟨hv, hlive⟩)
  have hget := hmap.getenv name hnil
  rw [hvisit, fcgiGetenv, hinv.get_eq_some_iff] at hget
  obtain ⟨a, b, hb, hhash, hvar, hval⟩ := hlive
  obtain ⟨a', b', hb', hhash', hvar', hval'⟩ := hget
  have hsame := (nodup_visits_iff hinv).mp hmap.once a a' b b' hb hb'
    (by simp [hval]) (by simp [hval']) (hvar.trans hvar'.symm)
  subst hsame
  rw [hb] at hb'
  cases hb'
  exact hne (hhash.symm.trans hhash')

/-- The names of a record, each with what stands behind it. -/
def NamesHashedAlike (behind : UInt8) : List FcgiParam → Prop
  | [] => True
  | q :: qs => HashedAlike q.name (q.value ++ encodeParams qs ++ [behind]) ∧
      NamesHashedAlike behind qs

theorem filed_alike (behind : UInt8) (qs : List FcgiParam) :
    (∀ e ∈ filed behind qs, e.1 = nameHash e.2.name) ↔ NamesHashedAlike behind qs := by
  induction qs with
  | nil => simp [filed, NamesHashedAlike]
  | cons q qs ih =>
    rw [filed, forall_mem_cons, NamesHashedAlike, ih, recordHash_eq_iff]

theorem filed_params (behind : UInt8) (qs : List FcgiParam) :
    (filed behind qs).map Prod.snd = qs := by
  induction qs with
  | nil => rfl
  | cons q qs ih => rw [filed, map_cons, ih]

theorem mem_filed {behind : UInt8} {qs : List FcgiParam} {e : Nat × FcgiParam}
    (he : e ∈ filed behind qs) : ∃ tail, e.1 = recordHash e.2.name tail := by
  induction qs with
  | nil => cases he
  | cons q qs ih =>
    rcases mem_cons.mp he with rfl | he
    · exact ⟨_, rfl⟩
    · exact ih he

/-- The FastCGI environment as a map: after `fcgi_get_params` has stored the
pairs of a record and after any calls of `fcgi_putenv`, the environment is the
map of the values last stored exactly if every name of the record is hashed as
it is in a C string. -/
theorem fcgiEnv_isMap_iff (buf : Nat → UInt8) (p : Nat) (qs : List FcgiParam)
    (hbuf : Memory.slice buf p (encodeParams qs).length = encodeParams qs)
    (calls : List (List UInt8 × Option (List UInt8))) :
    ∃ env, fcgiGetParams FcgiHash.init buf p (p + (encodeParams qs).length) = (true, env) ∧
      (IsMap (putenvs env calls) (lastStored (qs.map FcgiParam.store ++ calls.map putenvStore)) ↔
        NamesHashedAlike (buf (p + (encodeParams qs).length)) qs) := by
  refine ⟨_, fcgiGetParams_encodeParams qs FcgiHash.init hbuf, ?_⟩
  rw [← filed_alike]
  constructor
  · intro hmap
    by_contra hbad
    push Not at hbad
    obtain ⟨e, he, hhash⟩ := hbad
    have hname : e.2.name ≠ [] := by
      intro hnil
      obtain ⟨tail, htail⟩ := mem_filed he
      rw [htail, hnil] at hhash
      exact hhash rfl
    exact (storeAll_misfiled FcgiHash.init_inv he hhash hname |>.putenvs calls).not_isMap _ hmap
  · intro hgood
    have hstored := init_filed.storeAll hgood
    have hput := (hstored.putenvs calls).isMap
    rw [lastStored, foldl_append]
    have hmap : (filed (buf (p + (encodeParams qs).length)) qs).map
        (fun e => e.2.store) = qs.map FcgiParam.store := by
      have hparams := congrArg (List.map FcgiParam.store)
        (filed_params (buf (p + (encodeParams qs).length)) qs)
      rwa [List.map_map] at hparams
    rw [hmap] at hput
    exact hput

/-- `SCRIPT=a` -/
def scriptParam : FcgiParam where
  name := [83, 67, 82, 73, 80, 84]
  value := [97]
  name_lt := by decide
  value_lt := by decide

theorem fcgiEnv_isMap_iff_script :
    ∃ env, fcgiGetParams FcgiHash.init (cText (encodeParams [scriptParam])) 0
        (0 + (encodeParams [scriptParam]).length) = (true, env) ∧
      IsMap (putenvs env [(scriptParam.name, none)])
        (lastStored ([scriptParam].map FcgiParam.store ++
          [(scriptParam.name, none)].map putenvStore)) := by
  obtain ⟨env, hrun, hiff⟩ := fcgiEnv_isMap_iff
    (cText (encodeParams [scriptParam])) 0 [scriptParam] (by decide)
    [(scriptParam.name, none)]
  exact ⟨env, hrun, hiff.mpr ⟨fun _ => ⟨by decide, by decide⟩, trivial⟩⟩

/-- `FOO=bar` -/
def fooParam : FcgiParam where
  name := [70, 79, 79]
  value := [98, 97, 114]
  name_lt := by decide
  value_lt := by decide

/-- A variable with a name of three bytes is not found. -/
theorem foo_not_found : ¬ ∀ (buf : Nat → UInt8) (p : Nat) (qs : List FcgiParam)
        (calls : List (List UInt8 × Option (List UInt8))),
      Memory.slice buf p (encodeParams qs).length = encodeParams qs → ∀ name, name ≠ [] →
        fcgiGetenv (putenvs (fcgiGetParams FcgiHash.init buf p
          (p + (encodeParams qs).length)).2 calls) name =
        lastStored (qs.map FcgiParam.store ++ calls.map putenvStore) name := by
  intro hall
  have hfoo := hall (cText (encodeParams [fooParam])) 0 [fooParam] []
    (by decide) fooParam.name (by decide)
  have hget : fcgiGetenv (putenvs (fcgiGetParams FcgiHash.init (cText (encodeParams [fooParam])) 0
        (0 + (encodeParams [fooParam]).length)).2 []) fooParam.name = none := by
    decide
  rw [hget] at hfoo
  cases hfoo

end Map

end PhpEngine
