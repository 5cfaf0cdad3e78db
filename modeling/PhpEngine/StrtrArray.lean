/-
`strtr` with an array (ext/standard/string.c): a search for many patterns at once, with a table
of shifts, buckets of patterns by the hash of a suffix, and hashes of prefixes as a filter.
Sizes are reduced modulo the width of `size_t`.
-/
import PhpEngine.MachineInt
import PhpEngine.QsortRuns
import Mathlib.Logic.Function.Basic

namespace PhpEngine

open Memory Function

/-- `PATNREPL` -/
structure PatNRepl where
  pat : List UInt8
  repl : List UInt8
deriving Repr, DecidableEq, Inhabited

/-- `a - b` in `size_t`. -/
def sizeSub (a b : Nat) : Nat :=
  (a + ulongMod - b) % ulongMod

/-- `a + b` in `size_t`. -/
def sizeAdd (a b : Nat) : Nat :=
  (a + b) % ulongMod

/-- `SHIFT_TAB_SIZE - 1` -/
def shiftMask : UInt16 := 0x1fff

/-- `HASH_TAB_SIZE` -/
def hashTabSize : Nat := 1024

/-- `HASH_TAB_SIZE - 1` -/
def hashMask : UInt16 := 0x3ff

/-- `php_strtr_hash`, where the string is known by its bytes. -/
def phpStrtrHash (str : Nat → UInt8) (len : Nat) : UInt16 :=
  (List.range len).foldl (fun res i => res * 33 + (str i).toUInt16) 0

/-- `&S(&pat)[j]` -/
def PatNRepl.at (p : PatNRepl) (j : Nat) : Nat → UInt8 :=
  fun k => p.pat.getD (j + k) 0

/-- `php_strtr_populate_shift` -/
def phpStrtrPopulateShift (patterns : List PatNRepl) (B m : Nat) : Nat → Nat :=
  patterns.foldl (fun entries p => (List.range (m - B + 1)).foldl (fun entries j =>
      let h := (phpStrtrHash (p.at j) B &&& shiftMask).toNat
      update entries h (min (entries h) (m - j - B))) entries)
    fun _ => m - B + 1

/-- The hash by which the patterns are put into buckets. -/
def suffixHash (B m : Nat) (p : PatNRepl) : UInt16 :=
  phpStrtrHash (p.at (m - B)) B &&& hashMask

/-- `php_strtr_compare_hash_suffix` -/
def phpStrtrCompareHashSuffix (B m : Nat) (a b : PatNRepl) : Int :=
  if suffixHash B m b < suffixHash B m a then 1
  else if suffixHash B m a < suffixHash B m b then -1
  else if b.pat.length < a.pat.length then -1
  else if a.pat.length < b.pat.length then 1
  else 0

/-- `zend_qsort_r` on the patterns: `deref` tells what a slot of the array designates. -/
def qsortPatterns (deref : List UInt8 → PatNRepl) (compare : PatNRepl → PatNRepl → Int)
    (mem : Nat → UInt8) (fuel patnum : Nat) : Option (List PatNRepl) :=
  let q : ZendQsort.Qsort Unit := ⟨patnum, 32, fun a b u => (compare (deref a) (deref b), u)⟩
  (q.zendQsortR fuel ⟨mem, ()⟩).map fun s => (q.slots s).map deref

/-- The array of `patnum` slots from 0 on designates the patterns. -/
def SlotsHold (deref : List UInt8 → PatNRepl) (mem : Nat → UInt8) (patterns : List PatNRepl) :
    Prop :=
  (List.range patterns.length).map (fun k => deref (slice mem (k * 32) 32)) = patterns

/-- The first loop over `hash->entries`: the index where each bucket starts. -/
def bucketStarts : List UInt16 → Nat → UInt16 → (Nat → Int) → Nat → Int
  | [], _, _, entries => entries
  | h :: hashes, i, lastH, entries =>
    if h ≠ lastH then bucketStarts hashes (i + 1) h (update entries h.toNat i)
    else bucketStarts hashes (i + 1) lastH entries

/-- The second one, from `n - 1` down to 0. -/
def fillDown : Nat → (Nat → Int) → Nat → Int
  | 0, entries => entries
  | i + 1, entries =>
    fillDown i (if entries i = -1 then update entries i (entries (i + 1)) else entries)

/-- `PPRES` -/
structure Ppres where
  B : Nat
  Bp : Nat
  m : Nat
  shift : Nat → Nat
  hash : Nat → Int
  prefixes : List UInt16
  patterns : List PatNRepl

/-- The indices from `offset_start` up to `offset_end`. -/
def Ppres.bucket (d : Ppres) (h2 : Nat) : List Nat :=
  let offsetStart := (d.hash h2).toNat
  List.range' offsetStart ((d.hash (h2 + 1)).toNat - offsetStart)

/-- The minimum pattern length, `(STRLEN)-1` if there is none. -/
def minLength (patterns : List PatNRepl) : Nat :=
  patterns.foldl (fun m p => if p.pat.length < m then p.pat.length else m) (ulongMod - 1)

/-- `php_strtr_array_prepare`, where `sorted` is what `zend_qsort_r` makes of the patterns. -/
def phpStrtrArrayPrepare (patterns sorted : List PatNRepl) (B Bp : Nat) : Ppres :=
  let m := minLength patterns
  let B := min B m
  let Bp := min Bp m
  let starts := bucketStarts (sorted.map (suffixHash B m)) 0 0xffff fun _ => -1
  { B, Bp, m
    shift := phpStrtrPopulateShift patterns B m
    hash := fillDown hashTabSize (update starts hashTabSize sorted.length)
    prefixes := sorted.map fun p => phpStrtrHash (p.at 0) Bp
    patterns := sorted }

/-- The variables of `php_strtr_array_do_repl`. -/
structure ReplState where
  pos : Nat
  nextwpos : Nat
  result : List UInt8

/-- The indices of `len` bytes of the text. -/
def indices (i len : Nat) : List Nat :=
  (List.range len).map (sizeAdd i)

/-- The hash of `len` bytes of the text from the index `i` on. -/
def textHash (text : Nat → UInt8) (i len : Nat) : UInt16 :=
  phpStrtrHash (fun k => text (sizeAdd i k)) len

/-- The search in a bucket at `pos`: the indices of the text that `memcmp` is given, and the
pattern that was found. -/
def findPattern (text : Nat → UInt8) (len pos : Nat) (d : Ppres) (prefixH : UInt16) :
    List Nat → List Nat × Option PatNRepl
  | [] => ([], none)
  | i :: bucket =>
    let pnr := d.patterns.getD i default
    if d.prefixes.getD i 0 ≠ prefixH ∨ sizeSub len pos < pnr.pat.length then
      findPattern text len pos d prefixH bucket
    else if (List.range pnr.pat.length).all fun k => pnr.at 0 k == text (sizeAdd pos k) then
      (indices pos pnr.pat.length, some pnr)
    else
      let r := findPattern text len pos d prefixH bucket
      (indices pos pnr.pat.length ++ r.1, r.2)

/-- A turn of `php_strtr_array_do_repl`, with the indices of the text it reads. -/
def replTurn (text : Nat → UInt8) (len : Nat) (d : Ppres) (s : ReplState) :
    List Nat × ReplState :=
  let window := sizeSub (sizeAdd s.pos d.m) d.B
  let h := textHash text window d.B &&& shiftMask
  let shift := d.shift h.toNat
  if 0 < shift then (indices window d.B, { s with pos := sizeAdd s.pos shift })
  else
    let h2 := (h &&& hashMask).toNat
    let found := findPattern text len s.pos d (textHash text s.pos d.Bp) (d.bucket h2)
    (indices window d.B ++ indices s.pos d.Bp ++ found.1, match found.2 with
      | some pnr =>
        let pos := sizeAdd s.pos pnr.pat.length
        ⟨pos, pos, s.result ++ slice text s.nextwpos (s.pos - s.nextwpos) ++ pnr.repl⟩
      | none => { s with pos := sizeAdd s.pos 1 })

/-- `php_strtr_array_do_repl`: the indices of the text it reads, and the result. -/
def phpStrtrArrayDoRepl (text : Nat → UInt8) (len : Nat) (d : Ppres) :
    Nat → ReplState → Option (List Nat × List UInt8)
  | 0, _ => none
  | fuel + 1, s =>
    if s.pos ≤ sizeSub len d.m then
      let turn := replTurn text len d s
      (phpStrtrArrayDoRepl text len d fuel turn.2).map fun r => (turn.1 ++ r.1, r.2)
    else some ([], s.result ++ slice text s.nextwpos (len - s.nextwpos))

/-- `php_strtr_array` for patterns none of which is empty; the ones that are longer than the text
are left out. -/
def phpStrtrArray (deref : List UInt8 → PatNRepl) (mem text : Nat → UInt8) (slen : Nat)
    (pats : List PatNRepl) (fuel : Nat) : Option (List Nat × List UInt8) :=
  if pats.length = 0 then some ([], slice text 0 slen)
  else
    let patterns := pats.filter fun p => p.pat.length ≤ slen
    let m := minLength patterns
    (qsortPatterns deref (phpStrtrCompareHashSuffix (min 2 m) m) mem fuel patterns.length).bind
      fun sorted => phpStrtrArrayDoRepl text slen (phpStrtrArrayPrepare patterns sorted 2 2) fuel
        ⟨0, 0, []⟩

end PhpEngine
