/-
The hash table of the FastCGI environment (sapi/cgi/fastcgi.c): 128 chains of
buckets, and one list through all buckets.  A bucket that was deleted has no
value; it leaves its chain and stays in the list.

A bucket is addressed by its number in the order of allocation.  The blocks of
128 buckets and the segments that hold the strings only hand out memory.
-/
import Mathlib.Data.List.Basic
import Mathlib.Data.List.Nodup
import Mathlib.Data.List.Perm.Subperm
import Mathlib.Data.UInt

namespace PhpEngine

open List Option

variable {p : Option Nat} {as : List Nat} {a fuel : Nat} {b : FcgiHashBucket} {val' : List UInt8}

/-- `fcgi_hash_bucket` -/
structure FcgiHashBucket where
  hashValue : Nat
  var : List UInt8
  val : Option (List UInt8)
  next : Option Nat
  listNext : Option Nat
deriving DecidableEq

/-- `fcgi_hash` -/
structure FcgiHash where
  hashTable : Nat → Option Nat
  list : Option Nat
  buckets : List FcgiHashBucket

/-- `FCGI_HASH_TABLE_MASK` -/
def fcgiHashTableMask : Nat := 128 - 1

namespace FcgiHash

/-- `fcgi_hash_init` -/
def init : FcgiHash :=
  ⟨fun _ => none, none, []⟩

variable (h : FcgiHash)

/-- The test that the three loops over a chain make. -/
def hits (hashValue : Nat) (var : List UInt8) (b : FcgiHashBucket) : Bool :=
  b.hashValue == hashValue && b.var.length == var.length && b.var == var

def findLoop (hashValue : Nat) (var : List UInt8) : Nat → Option Nat → Option Nat
  | 0, _ => none
  | _ + 1, none => none
  | fuel + 1, some a =>
    match h.buckets[a]? with
    | none => none
    | some b =>
      if hits hashValue var b then some a
      else findLoop hashValue var fuel b.next

/-- The walk over the chain of a hash value. -/
def find (hashValue : Nat) (var : List UInt8) : Option Nat :=
  h.findLoop hashValue var (h.buckets.length + 1) (h.hashTable (hashValue &&& fcgiHashTableMask))

def setVal (a : Nat) (val : Option (List UInt8)) : FcgiHash :=
  { h with buckets := h.buckets.modify a fun b => { b with val := val } }

/-- `fcgi_hash_set` -/
def fcgiHashSet (hashValue : Nat) (var val : List UInt8) : FcgiHash :=
  match h.find hashValue var with
  | some a => h.setVal a (some val)
  | none =>
    let idx := hashValue &&& fcgiHashTableMask
    { hashTable := fun i =>
        if i = idx then some h.buckets.length else h.hashTable i
      list := some h.buckets.length
      buckets := h.buckets ++ [⟨hashValue, var, some val, h.hashTable idx, h.list⟩] }

/-- `*p = next`, where `p` is the place in the table or in the bucket
before. -/
def setLink (idx : Nat) (before next : Option Nat) : FcgiHash :=
  match before with
  | none => { h with hashTable := fun i => if i = idx then next else h.hashTable i }
  | some q => { h with
      buckets := h.buckets.modify q fun b => { b with next := next } }

def delLoop (hashValue : Nat) (var : List UInt8) : Nat → Option Nat → Option Nat → FcgiHash
  | 0, _, _ => h
  | _ + 1, _, none => h
  | fuel + 1, before, some a =>
    match h.buckets[a]? with
    | none => h
    | some b =>
      if hits hashValue var b then
        (h.setVal a none).setLink (hashValue &&& fcgiHashTableMask) before b.next
      else delLoop hashValue var fuel (some a) b.next

/-- `fcgi_hash_del` -/
def fcgiHashDel (hashValue : Nat) (var : List UInt8) : FcgiHash :=
  h.delLoop hashValue var (h.buckets.length + 1) none
    (h.hashTable (hashValue &&& fcgiHashTableMask))

/-- `fcgi_hash_get` -/
def fcgiHashGet (hashValue : Nat) (var : List UInt8) : Option (List UInt8) :=
  (h.find hashValue var).bind fun a => h.buckets[a]?.bind FcgiHashBucket.val

def applyLoop : Nat → Option Nat → List (List UInt8 × List UInt8)
  | 0, _ => []
  | _ + 1, none => []
  | fuel + 1, some a =>
    match h.buckets[a]? with
    | none => []
    | some b =>
      match b.val with
      | some val => (b.var, val) :: applyLoop fuel b.listNext
      | none => applyLoop fuel b.listNext

/-- `fcgi_hash_apply`: what the function is called with. -/
def fcgiHashApply : List (List UInt8 × List UInt8) :=
  h.applyLoop (h.buckets.length + 1) h.list

end FcgiHash

/-- The buckets that are reached from `p` along `next`. -/
inductive Linked (buckets : List FcgiHashBucket) : Option Nat → List Nat → Prop
  | nil : Linked buckets none []
  | cons {a : Nat} {b : FcgiHashBucket} {as : List Nat} :
      buckets[a]? = some b → Linked buckets b.next as → Linked buckets (some a) (a :: as)

/-- The chains hold the live buckets, each in the chain of its hash value, and
no two live buckets have the same hash value and the same name. -/
structure FcgiHashInv (h : FcgiHash) (chains : Nat → List Nat) : Prop where
  linked : ∀ idx, Linked h.buckets (h.hashTable idx) (chains idx)
  nodup : ∀ idx, (chains idx).Nodup
  mem : ∀ (idx a : Nat), a ∈ chains idx ↔ ∃ b, h.buckets[a]? = some b ∧
    b.val ≠ none ∧ b.hashValue &&& fcgiHashTableMask = idx
  unique : ∀ (a a' : Nat) (b b' : FcgiHashBucket), h.buckets[a]? = some b →
    h.buckets[a']? = some b' → b.val ≠ none → b'.val ≠ none → b.hashValue = b'.hashValue →
    b.var = b'.var → a = a'
  list : h.list = if h.buckets = [] then none else some (h.buckets.length - 1)
  listNext : ∀ (a : Nat) (b : FcgiHashBucket), h.buckets[a]? = some b →
    b.listNext = if a = 0 then none else some (a - 1)

variable {h : FcgiHash} {chains : Nat → List Nat} {hashValue : Nat}
  {var val : List UInt8} {buckets buckets' : List FcgiHashBucket}

namespace FcgiHash

/-- A bucket with the hash value and the name has the value. -/
def Live (h : FcgiHash) (hashValue : Nat) (var val : List UInt8) : Prop :=
  ∃ (a : Nat) (b : FcgiHashBucket), h.buckets[a]? = some b ∧
    b.hashValue = hashValue ∧ b.var = var ∧ b.val = some val

@[simp] theorem hits_iff (b : FcgiHashBucket) :
    hits hashValue var b = true ↔ b.hashValue = hashValue ∧ b.var = var := by
  simp only [hits, Bool.and_eq_true, beq_iff_eq]
  constructor
  · rintro ⟨⟨hhash, -⟩, hvar⟩
    exact ⟨hhash, hvar⟩
  · rintro ⟨hhash, hvar⟩
    exact ⟨⟨hhash, by rw [hvar]⟩, hvar⟩

theorem init_inv : FcgiHashInv init fun _ => [] where
  linked _ := .nil
  nodup _ := nodup_nil
  mem idx a := by simp [init]
  unique a a' b b' hb := by simp [init] at hb
  list := rfl
  listNext a b hb := by simp [init] at hb

end FcgiHash

namespace Linked

theorem congr (hl : Linked buckets p as) (hsame : ∀ a ∈ as, ∀ b, buckets[a]? = some b →
      ∃ b', buckets'[a]? = some b' ∧ b'.next = b.next) : Linked buckets' p as := by
  induction hl with
  | nil => exact .nil
  | @cons a b as hb hl ih =>
    obtain ⟨b', hb', hnext⟩ := hsame a mem_cons_self b hb
    refine .cons hb' ?_
    rw [hnext]
    exact ih fun a' ha' => hsame a' (mem_cons_of_mem a ha')

theorem lt_length (hl : Linked buckets p as) : ∀ a ∈ as, a < buckets.length := by
  induction hl with
  | nil => simp
  | @cons a b as hb hl ih =>
    exact forall_mem_cons.mpr ⟨(List.getElem?_eq_some_iff.mp hb).1, ih⟩

theorem length_le (hl : Linked buckets p as) (hnodup : as.Nodup) : as.length ≤ buckets.length := by
  have hsub : as ⊆ List.range buckets.length :=
    fun a ha => mem_range.mpr (hl.lt_length a ha)
  have hle := (hnodup.subperm hsub).length_le
  rwa [length_range] at hle

/-- A chain without one of its buckets: the link to it goes to the next. -/
theorem unlink {before behind : List Nat} (hl : Linked buckets p (before ++ a :: behind))
    (hb : buckets[a]? = some b) (hnodup : before.Nodup)
    (hbefore : ∀ q ∈ before, ∀ c, buckets[q]? = some c → ∃ c', buckets'[q]? = some c' ∧
        c'.next = if before.getLast? = some q then b.next else c.next)
    (hbehind : ∀ q ∈ behind, ∀ c, buckets[q]? = some c →
      ∃ c', buckets'[q]? = some c' ∧ c'.next = c.next) :
    Linked buckets' (if before = [] then b.next else p) (before ++ behind) := by
  induction before generalizing p with
  | nil =>
    cases hl with
    | cons hb' hl =>
      rw [hb] at hb'
      cases hb'
      exact hl.congr hbehind
  | cons q before ih =>
    cases hl with
    | @cons _ c _ hc hl =>
      obtain ⟨hq, hnodup⟩ := nodup_cons.mp hnodup
      obtain ⟨c', hc', hnext⟩ := hbefore q mem_cons_self c hc
      refine .cons hc' ?_
      have hrest := ih hl hnodup fun q' hq' d hd => by
        obtain ⟨d', hd', hdnext⟩ :=
          hbefore q' (mem_cons_of_mem q hq') d hd
        refine ⟨d', hd', ?_⟩
        rw [hdnext, getLast?_cons]
        cases hlast : before.getLast? with
        | none =>
          rw [getLast?_eq_none_iff.mp hlast] at hq'
          cases hq'
        | some last => simp
      cases before with
      | nil =>
        rw [hnext, getLast?_singleton, if_pos rfl]
        exact hrest
      | cons q' before =>
        have hlast : (q :: q' :: before).getLast? ≠ some q := by
          intro heq
          exact hq (mem_of_getLast? heq)
        rw [hnext, if_neg hlast]
        exact hrest

end Linked

namespace FcgiHashInv

/-- The walk over a chain finds the bucket of the hash value and the name. -/
theorem findLoop_eq (hl : Linked h.buckets p as) (hfuel : as.length < fuel) :
    h.findLoop hashValue var fuel p = as.find? fun a =>
      h.buckets[a]?.any (FcgiHash.hits hashValue var) := by
  induction hl generalizing fuel with
  | nil =>
    cases fuel with
    | zero => cases hfuel
    | succ fuel => rfl
  | @cons a b as hb hl ih =>
    cases fuel with
    | zero => cases hfuel
    | succ fuel =>
      rw [FcgiHash.findLoop, hb, find?_cons, hb, any_some]
      cases hhit : FcgiHash.hits hashValue var b with
      | true => simp [hhit]
      | false =>
        simp only [hhit, Bool.false_eq_true, if_false]
        exact ih (Nat.lt_of_succ_lt_succ hfuel)

section

variable (hinv : FcgiHashInv h chains)
include hinv

theorem find_eq (hashValue : Nat) (var : List UInt8) :
    h.find hashValue var = (chains (hashValue &&& fcgiHashTableMask)).find?
      fun a => h.buckets[a]?.any (FcgiHash.hits hashValue var) :=
  findLoop_eq (hinv.linked _) (Nat.lt_succ_of_le ((hinv.linked _).length_le (hinv.nodup _)))

theorem find_some (hfind : h.find hashValue var = some a) :
    a ∈ chains (hashValue &&& fcgiHashTableMask) ∧
    ∃ b, h.buckets[a]? = some b ∧ b.hashValue = hashValue ∧ b.var = var ∧ b.val ≠ none := by
  rw [hinv.find_eq] at hfind
  have hmem := mem_of_find?_eq_some hfind
  have hhit := find?_some hfind
  obtain ⟨b, hb, hval, -⟩ := (hinv.mem _ a).mp hmem
  rw [hb, any_some, FcgiHash.hits_iff] at hhit
  exact ⟨hmem, b, hb, hhit.1, hhit.2, hval⟩

theorem find_none (hfind : h.find hashValue var = none) (val : List UInt8) :
    ¬ h.Live hashValue var val := by
  rintro ⟨a, b, hb, hhash, hvar, hval⟩
  rw [hinv.find_eq, find?_eq_none] at hfind
  refine hfind a ((hinv.mem _ a).mpr ⟨b, hb, by simp [hval], by rw [hhash]⟩) ?_
  rw [hb, any_some, FcgiHash.hits_iff]
  exact ⟨hhash, hvar⟩

theorem live_unique (hlive : h.Live hashValue var val) (hlive' : h.Live hashValue var val') :
    val = val' := by
  obtain ⟨a, b, hb, hhash, hvar, hval⟩ := hlive
  obtain ⟨a', b', hb', hhash', hvar', hval'⟩ := hlive'
  have haddr := hinv.unique a a' b b' hb hb' (by simp [hval]) (by simp [hval'])
    (hhash.trans hhash'.symm) (hvar.trans hvar'.symm)
  subst haddr
  rw [hb] at hb'
  cases hb'
  rw [hval] at hval'
  exact Option.some.inj hval'

/-- `fcgi_hash_get` returns the value of the live bucket. -/
theorem get_eq_some_iff :
    h.fcgiHashGet hashValue var = some val ↔ h.Live hashValue var val := by
  rw [FcgiHash.fcgiHashGet]
  constructor
  · intro hget
    obtain ⟨a, hfind, hval⟩ := bind_eq_some_iff.mp hget
    obtain ⟨-, b, hb, hhash, hvar, -⟩ := hinv.find_some hfind
    rw [hb, bind_some] at hval
    exact ⟨a, b, hb, hhash, hvar, hval⟩
  · intro hlive
    cases hfind : h.find hashValue var with
    | none => exact absurd hlive (hinv.find_none hfind val)
    | some a =>
      obtain ⟨-, b, hb, hhash, hvar, hne⟩ := hinv.find_some hfind
      obtain ⟨val', hval'⟩ := ne_none_iff_exists'.mp hne
      have heq := hinv.live_unique hlive ⟨a, b, hb, hhash, hvar, hval'⟩
      rw [bind_some, hb, bind_some, hval', heq]

end

theorem setVal_getElem? (h : FcgiHash) (a i : Nat) (val : Option (List UInt8)) :
    (h.setVal a val).buckets[i]? = h.buckets[i]?.map fun b =>
      if a = i then { b with val := val } else b := by
  rw [FcgiHash.setVal, getElem?_modify]
  rfl

section

variable (hinv : FcgiHashInv h chains)
include hinv

theorem setVal_inv (hb : h.buckets[a]? = some b) (hlive : b.val ≠ none) (val : List UInt8) :
    FcgiHashInv (h.setVal a (some val)) chains := by
  -- of every bucket only the value may be another
  have hold : ∀ (i : Nat) (c' : FcgiHashBucket), (h.setVal a (some val)).buckets[i]? = some c' →
      ∃ c, h.buckets[i]? = some c ∧ c'.hashValue = c.hashValue ∧
        c'.var = c.var ∧ c'.listNext = c.listNext ∧
        (c'.val ≠ none ↔ c.val ≠ none) := by
    intro i c' hc'
    rw [setVal_getElem?] at hc'
    obtain ⟨c, hc, rfl⟩ := map_eq_some_iff.mp hc'
    refine ⟨c, hc, ?_⟩
    split
    case isTrue heq =>
      subst heq
      rw [hb] at hc
      cases hc
      exact ⟨rfl, rfl, rfl, by simp [hlive]⟩
    case isFalse => exact ⟨rfl, rfl, rfl, Iff.rfl⟩
  have hnew : ∀ (i : Nat) (c : FcgiHashBucket), h.buckets[i]? = some c →
      ∃ c', (h.setVal a (some val)).buckets[i]? = some c' ∧
        c'.next = c.next ∧ c'.hashValue = c.hashValue ∧
        (c'.val ≠ none ↔ c.val ≠ none) := by
    intro i c hc
    rw [setVal_getElem?, hc]
    refine ⟨_, rfl, ?_⟩
    split
    case isTrue heq =>
      subst heq
      rw [hb] at hc
      cases hc
      exact ⟨rfl, rfl, by simp [hlive]⟩
    case isFalse => exact ⟨rfl, rfl, Iff.rfl⟩
  constructor
  · intro idx
    refine (hinv.linked idx).congr fun i _ c hc => ?_
    obtain ⟨c', hc', hnext, -⟩ := hnew i c hc
    exact ⟨c', hc', hnext⟩
  · exact hinv.nodup
  · intro idx i
    rw [hinv.mem]
    constructor
    · rintro ⟨c, hc, hval, hidx⟩
      obtain ⟨c', hc', -, hhash, hiff⟩ := hnew i c hc
      exact ⟨c', hc', hiff.mpr hval, by rw [hhash]; exact hidx⟩
    · rintro ⟨c', hc', hval, hidx⟩
      obtain ⟨c, hc, hhash, -, -, hiff⟩ := hold i c' hc'
      exact ⟨c, hc, hiff.mp hval, by rw [← hhash]; exact hidx⟩
  · intro i i' c c' hc hc' hval hval' hhash hvar
    obtain ⟨d, hd, hdhash, hdvar, -, hdiff⟩ := hold i c hc
    obtain ⟨d', hd', hdhash', hdvar', -, hdiff'⟩ := hold i' c' hc'
    exact hinv.unique i i' d d' hd hd' (hdiff.mp hval) (hdiff'.mp hval')
      (hdhash.symm.trans (hhash.trans hdhash'))
      (hdvar.symm.trans (hvar.trans hdvar'))
  · have hlist := hinv.list
    simpa [FcgiHash.setVal] using hlist
  · intro i c' hc'
    obtain ⟨c, hc, -, -, hnext, -⟩ := hold i c' hc'
    rw [hnext]
    exact hinv.listNext i c hc

/-- A new bucket at the head of its chain and of the list. -/
theorem newBucket_inv (hfind : h.find hashValue var = none) (val : List UInt8) :
    FcgiHashInv (h.fcgiHashSet hashValue var val) fun idx =>
      if idx = hashValue &&& fcgiHashTableMask then
        h.buckets.length :: chains idx else chains idx := by
  have hset : h.fcgiHashSet hashValue var val =
      { hashTable := fun i =>
          if i = hashValue &&& fcgiHashTableMask then some h.buckets.length
          else h.hashTable i
        list := some h.buckets.length
        buckets := h.buckets ++ [⟨hashValue, var, some val,
          h.hashTable (hashValue &&& fcgiHashTableMask), h.list⟩] } := by
    rw [FcgiHash.fcgiHashSet, hfind]
  have hnone := hinv.find_none hfind
  have hlast : (h.fcgiHashSet hashValue var val).buckets[h.buckets.length]? =
      some ⟨hashValue, var, some val, h.hashTable (hashValue &&& fcgiHashTableMask), h.list⟩ := by
    rw [hset]
    exact getElem?_concat_length
  have hkeep : ∀ (i : Nat) (c : FcgiHashBucket), h.buckets[i]? = some c →
      (h.fcgiHashSet hashValue var val).buckets[i]? = some c := by
    intro i c hc
    rw [hset]
    exact (getElem?_append_left (List.getElem?_eq_some_iff.mp hc).1).trans hc
  have hold : ∀ (i : Nat) (c : FcgiHashBucket),
      (h.fcgiHashSet hashValue var val).buckets[i]? = some c →
      h.buckets[i]? = some c ∨ (i = h.buckets.length ∧ c = ⟨hashValue, var, some val,
          h.hashTable (hashValue &&& fcgiHashTableMask), h.list⟩) := by
    intro i c hc
    by_cases hi : i < h.buckets.length
    · rw [hset] at hc
      exact .inl ((getElem?_append_left hi).symm.trans hc)
    · have hle : i = h.buckets.length := by
        rw [hset] at hc
        have hlt := (List.getElem?_eq_some_iff.mp hc).1
        simp only [length_append, length_singleton] at hlt
        omega
      subst hle
      rw [hlast] at hc
      exact .inr ⟨rfl, (Option.some.inj hc).symm⟩
  have hfresh : ∀ idx, h.buckets.length ∉ chains idx := by
    intro idx hmem
    exact lt_irrefl _ ((hinv.linked idx).lt_length _ hmem)
  have hkept : ∀ idx, Linked (h.fcgiHashSet hashValue var val).buckets
      (h.hashTable idx) (chains idx) := fun idx =>
    (hinv.linked idx).congr fun i _ c hc => ⟨c, hkeep i c hc, rfl⟩
  constructor
  · intro idx
    by_cases hidx : idx = hashValue &&& fcgiHashTableMask
    · subst hidx
      rw [if_pos rfl]
      have htable : (h.fcgiHashSet hashValue var val).hashTable
          (hashValue &&& fcgiHashTableMask) = some h.buckets.length := by
        rw [hset]
        exact if_pos rfl
      rw [htable]
      exact .cons hlast (hkept _)
    · rw [if_neg hidx]
      have htable : (h.fcgiHashSet hashValue var val).hashTable idx = h.hashTable idx := by
        rw [hset]
        exact if_neg hidx
      rw [htable]
      exact hkept idx
  · intro idx
    split
    · exact nodup_cons.mpr ⟨hfresh idx, hinv.nodup idx⟩
    · exact hinv.nodup idx
  · intro idx i
    have hchain : (i ∈ if idx = hashValue &&& fcgiHashTableMask then
        h.buckets.length :: chains idx else chains idx) ↔ i ∈ chains idx ∨
          (i = h.buckets.length ∧ hashValue &&& fcgiHashTableMask = idx) := by
      split
      case isTrue hidx => simp [hidx, or_comm]
      case isFalse hidx => simp [Ne.symm hidx]
    rw [hchain, hinv.mem]
    constructor
    · rintro (⟨c, hc, hrest⟩ | ⟨rfl, hidx⟩)
      · exact ⟨c, hkeep i c hc, hrest⟩
      · exact ⟨_, hlast, by simp, hidx⟩
    · rintro ⟨c, hc, hval, hidx⟩
      rcases hold i c hc with hc | ⟨hi, rfl⟩
      · exact .inl ⟨c, hc, hval, hidx⟩
      · exact .inr ⟨hi, hidx⟩
  · intro i i' c c' hc hc' hval hval' hhash hvar
    rcases hold i c hc with hc | ⟨hi, rfl⟩
    · rcases hold i' c' hc' with hc' | ⟨hi', rfl⟩
      · exact hinv.unique i i' c c' hc hc' hval hval' hhash hvar
      · obtain ⟨v, hv⟩ := ne_none_iff_exists'.mp hval
        exact absurd ⟨i, c, hc, hhash, hvar, hv⟩ (hnone v)
    · rcases hold i' c' hc' with hc' | ⟨hi', rfl⟩
      · obtain ⟨v, hv⟩ := ne_none_iff_exists'.mp hval'
        exact absurd ⟨i', c', hc', hhash.symm, hvar.symm, hv⟩ (hnone v)
      · rw [hi, hi']
  · rw [hset]
    simp
  · intro i c hc
    rcases hold i c hc with hc | ⟨rfl, rfl⟩
    · exact hinv.listNext i c hc
    · have hlist := hinv.list
      simp only [hlist, ← length_eq_zero_iff]

/-- `fcgi_hash_set` keeps the table in order. -/
theorem set_inv (hashValue : Nat) (var val : List UInt8) :
    ∃ chains', FcgiHashInv (h.fcgiHashSet hashValue var val) chains' := by
  cases hfind : h.find hashValue var with
  | none => exact ⟨_, hinv.newBucket_inv hfind val⟩
  | some a =>
    obtain ⟨-, b, hb, -, -, hval⟩ := hinv.find_some hfind
    refine ⟨chains, ?_⟩
    rw [FcgiHash.fcgiHashSet, hfind]
    exact hinv.setVal_inv hb hval val

/-- `fcgi_hash_set` changes the value of the one key. -/
theorem set_live {hashValue' : Nat} {var' : List UInt8} :
    (h.fcgiHashSet hashValue var val).Live hashValue' var' val' ↔
      if hashValue' = hashValue ∧ var' = var then val' = val else h.Live hashValue' var' val' := by
  cases hfind : h.find hashValue var with
  | none =>
    have hnone := hinv.find_none hfind val'
    have hbuckets : (h.fcgiHashSet hashValue var val).buckets = h.buckets ++
        [⟨hashValue, var, some val, h.hashTable (hashValue &&& fcgiHashTableMask), h.list⟩] := by
      rw [FcgiHash.fcgiHashSet, hfind]
    have hsplit : (h.fcgiHashSet hashValue var val).Live hashValue' var' val' ↔
        h.Live hashValue' var' val' ∨ (hashValue = hashValue' ∧ var = var' ∧ val = val') := by
      simp only [FcgiHash.Live, hbuckets]
      constructor
      · rintro ⟨a, b, hb, hkey⟩
        rcases mem_append.mp (mem_of_getElem? hb) with hmem | hmem
        · obtain ⟨a', ha'⟩ := getElem?_of_mem hmem
          exact .inl ⟨a', b, ha', hkey⟩
        · rw [mem_singleton.mp hmem] at hkey
          exact .inr ⟨hkey.1, hkey.2.1, Option.some.inj hkey.2.2⟩
      · rintro (⟨a, b, hb, hkey⟩ | ⟨rfl, rfl, rfl⟩)
        · exact ⟨a, b, (getElem?_append_left (List.getElem?_eq_some_iff.mp hb).1).trans hb, hkey⟩
        · exact ⟨_, _, getElem?_concat_length, rfl, rfl, rfl⟩
    rw [hsplit]
    split
    case isTrue hkey =>
      obtain ⟨rfl, rfl⟩ := hkey
      simp [hnone, eq_comm]
    case isFalse hkey =>
      refine or_iff_left ?_
      rintro ⟨rfl, rfl, -⟩
      exact hkey ⟨rfl, rfl⟩
  | some a =>
    obtain ⟨-, b, hb, hhash, hvar, hval⟩ := hinv.find_some hfind
    have hset : h.fcgiHashSet hashValue var val = h.setVal a (some val) := by
      rw [FcgiHash.fcgiHashSet, hfind]
    simp only [hset, FcgiHash.Live, setVal_getElem?, map_eq_some_iff]
    constructor
    · rintro ⟨i, c', ⟨c, hc, rfl⟩, hkey⟩
      by_cases hi : a = i
      · subst hi
        rw [hb] at hc
        cases hc
        rw [if_pos rfl] at hkey
        rw [if_pos ⟨hkey.1.symm.trans hhash, hkey.2.1.symm.trans hvar⟩]
        exact (Option.some.inj hkey.2.2).symm
      · rw [if_neg hi] at hkey
        rw [if_neg]
        · exact ⟨i, c, hc, hkey⟩
        · rintro ⟨rfl, rfl⟩
          exact hi (hinv.unique a i b c hb hc hval (by simp [hkey.2.2])
            (hhash.trans hkey.1.symm) (hvar.trans hkey.2.1.symm))
    · intro hlive
      by_cases hkey : hashValue' = hashValue ∧ var' = var
      · rw [if_pos hkey] at hlive
        refine ⟨a, _, ⟨b, hb, rfl⟩, ?_⟩
        rw [if_pos rfl]
        exact ⟨hhash.trans hkey.1.symm, hvar.trans hkey.2.symm, by rw [hlive]⟩
      · rw [if_neg hkey] at hlive
        obtain ⟨i, c, hc, hckey⟩ := hlive
        refine ⟨i, _, ⟨c, hc, rfl⟩, ?_⟩
        rw [if_neg]
        · exact hckey
        · rintro rfl
          rw [hb] at hc
          cases hc
          exact hkey ⟨hckey.1.symm.trans hhash, hckey.2.1.symm.trans hvar⟩

end

theorem delLoop_eq {q : Option Nat} (hl : Linked h.buckets p as) (hfuel : as.length < fuel) :
    (h.delLoop hashValue var fuel q p = h ∧
      ∀ a ∈ as, h.buckets[a]?.any (FcgiHash.hits hashValue var) = false) ∨
    ∃ (before behind : List Nat) (a : Nat) (b : FcgiHashBucket),
      as = before ++ a :: behind ∧ h.buckets[a]? = some b ∧ b.hashValue = hashValue ∧ b.var = var ∧
      h.delLoop hashValue var fuel q p = (h.setVal a none).setLink
        (hashValue &&& fcgiHashTableMask) (before.getLast?.or q) b.next := by
  induction hl generalizing fuel q with
  | nil =>
    cases fuel with
    | zero => cases hfuel
    | succ fuel => exact .inl ⟨rfl, by simp⟩
  | @cons a b as hb hl ih =>
    cases fuel with
    | zero => cases hfuel
    | succ fuel =>
      by_cases hhit : FcgiHash.hits hashValue var b = true
      · refine .inr ⟨[], as, a, b, rfl, hb, ((FcgiHash.hits_iff b).mp hhit).1,
          ((FcgiHash.hits_iff b).mp hhit).2, ?_⟩
        simp only [FcgiHash.delLoop, hb, hhit, if_true]
        rfl
      · have hstep : h.delLoop hashValue var (fuel + 1) q (some a) =
            h.delLoop hashValue var fuel (some a) b.next := by
          simp only [FcgiHash.delLoop, hb, hhit, Bool.false_eq_true, if_false]
        rw [hstep]
        rcases ih (q := some a) (Nat.lt_of_succ_lt_succ hfuel) with
          ⟨hsame, hnone⟩ | ⟨before, behind, a', b', rfl, hb', hhash, hvar, hdel⟩
        · refine .inl ⟨hsame, forall_mem_cons.mpr ⟨?_, hnone⟩⟩
          rw [hb, any_some]
          exact Bool.eq_false_iff.mpr hhit
        · refine .inr ⟨a :: before, behind, a', b', rfl, hb', hhash, hvar, ?_⟩
          rw [hdel, getLast?_cons]
          cases before.getLast? with
          | none | some last => rfl

theorem deleted_getElem? {idx i : Nat} {q next : Option Nat} :
    ((h.setVal a none).setLink idx q next).buckets[i]? = h.buckets[i]?.map fun c =>
        { c with
          val := if a = i then none else c.val
          next := if q = some i then next else c.next } := by
  cases q with
  | none =>
    simp only [FcgiHash.setLink, setVal_getElem?]
    split <;> simp_all
  | some q =>
    simp only [FcgiHash.setLink, getElem?_modify, setVal_getElem?]
    cases h.buckets[i]? with
    | none => rfl
    | some c =>
      split <;> split <;> simp_all

section

variable (hinv : FcgiHashInv h chains)
include hinv

theorem unlink_inv {before behind : List Nat}
    (hchain : chains (hashValue &&& fcgiHashTableMask) = before ++ a :: behind)
    (hb : h.buckets[a]? = some b) (hhash : b.hashValue = hashValue) :
    FcgiHashInv ((h.setVal a none).setLink (hashValue &&& fcgiHashTableMask)
      before.getLast? b.next) fun idx => (chains idx).erase a := by
  have hnodup := hinv.nodup (hashValue &&& fcgiHashTableMask)
  rw [hchain] at hnodup
  obtain ⟨hbefore, hbehind, hdisjoint⟩ := nodup_append.mp hnodup
  have ha : a ∉ before := fun hmem =>
    hdisjoint a hmem a mem_cons_self rfl
  have herase : (before ++ a :: behind).erase a = before ++ behind := by
    rw [erase_append_right _ ha, erase_cons_head]
  have hother : ∀ idx, idx ≠ hashValue &&& fcgiHashTableMask → a ∉ chains idx := by
    intro idx hidx hmem
    obtain ⟨b', hb', -, hidx'⟩ := (hinv.mem idx a).mp hmem
    rw [hb] at hb'
    cases hb'
    rw [hhash] at hidx'
    exact hidx hidx'.symm
  -- the bucket before is in the same chain, if there is one
  have hlink : ∀ q, before.getLast? = some q → q ∈ before :=
    fun q hq => mem_of_getLast? hq
  have hkept : ∀ (i : Nat) (c' : FcgiHashBucket),
      ((h.setVal a none).setLink (hashValue &&& fcgiHashTableMask)
        before.getLast? b.next).buckets[i]? = some c' →
      ∃ c, h.buckets[i]? = some c ∧ c'.hashValue = c.hashValue ∧
        c'.var = c.var ∧ c'.listNext = c.listNext ∧
        c'.val = if a = i then none else c.val := by
    intro i c' hc'
    rw [deleted_getElem?] at hc'
    obtain ⟨c, hc, rfl⟩ := map_eq_some_iff.mp hc'
    exact ⟨c, hc, rfl, rfl, rfl, rfl⟩
  have hnew : ∀ (i : Nat) (c : FcgiHashBucket), h.buckets[i]? = some c →
      ∃ c', ((h.setVal a none).setLink (hashValue &&& fcgiHashTableMask)
          before.getLast? b.next).buckets[i]? = some c' ∧
        c'.hashValue = c.hashValue ∧
        c'.val = (if a = i then none else c.val) ∧
        c'.next = if before.getLast? = some i then b.next else c.next := by
    intro i c hc
    rw [deleted_getElem?, hc]
    exact ⟨_, rfl, rfl, rfl, rfl⟩
  constructor
  · intro idx
    by_cases hidx : idx = hashValue &&& fcgiHashTableMask
    · subst hidx
      have hl := hinv.linked (hashValue &&& fcgiHashTableMask)
      rw [hchain] at hl
      rw [hchain, herase]
      have hlinked := hl.unlink hb hbefore (fun q _ c hc => by
          obtain ⟨c', hc', -, -, hnext⟩ := hnew q c hc
          exact ⟨c', hc', hnext⟩)
        (fun q hq c hc => by
          obtain ⟨c', hc', -, -, hnext⟩ := hnew q c hc
          refine ⟨c', hc', ?_⟩
          rw [hnext, if_neg]
          intro hlast
          exact hdisjoint q (hlink q hlast) q (mem_cons_of_mem a hq) rfl)
      have htable : ((h.setVal a none).setLink (hashValue &&& fcgiHashTableMask) before.getLast?
            b.next).hashTable (hashValue &&& fcgiHashTableMask) =
          if before = [] then b.next
          else h.hashTable (hashValue &&& fcgiHashTableMask) := by
        cases hlast : before.getLast? with
        | none =>
          rw [if_pos (getLast?_eq_none_iff.mp hlast)]
          exact if_pos rfl
        | some q =>
          have hne : before ≠ [] := by
            rintro rfl
            cases hlast
          rw [if_neg hne]
          rfl
      rw [htable]
      exact hlinked
    · rw [erase_of_not_mem (hother idx hidx)]
      have htable : ((h.setVal a none).setLink (hashValue &&& fcgiHashTableMask) before.getLast?
            b.next).hashTable idx = h.hashTable idx := by
        cases before.getLast? with
        | none => exact if_neg hidx
        | some q => rfl
      rw [htable]
      refine (hinv.linked idx).congr fun i hi c hc => ?_
      obtain ⟨c', hc', -, -, hnext⟩ := hnew i c hc
      refine ⟨c', hc', ?_⟩
      rw [hnext, if_neg]
      intro hlast
      have hi' : i ∈ chains (hashValue &&& fcgiHashTableMask) := by
        rw [hchain]
        exact mem_append_left _ (hlink i hlast)
      obtain ⟨d, hd, -, hdidx⟩ := (hinv.mem _ i).mp hi
      obtain ⟨d', hd', -, hdidx'⟩ := (hinv.mem _ i).mp hi'
      rw [hd] at hd'
      cases hd'
      exact hidx (hdidx.symm.trans hdidx')
  · exact fun idx => (hinv.nodup idx).erase a
  · intro idx i
    rw [(hinv.nodup idx).mem_erase_iff, hinv.mem]
    constructor
    · rintro ⟨hne, c, hc, hval, hidx⟩
      obtain ⟨c', hc', hhash', hval', -⟩ := hnew i c hc
      refine ⟨c', hc', ?_, by rw [hhash']; exact hidx⟩
      rw [hval', if_neg (Ne.symm hne)]
      exact hval
    · rintro ⟨c', hc', hval, hidx⟩
      obtain ⟨c, hc, hhash', -, -, hval'⟩ := hkept i c' hc'
      have hne : a ≠ i := by
        rintro rfl
        rw [hval', if_pos rfl] at hval
        exact hval rfl
      rw [hval', if_neg hne] at hval
      exact ⟨hne.symm, c, hc, hval, by rw [← hhash']; exact hidx⟩
  · intro i i' c c' hc hc' hval hval' hhash' hvar'
    obtain ⟨d, hd, hdhash, hdvar, -, hdval⟩ := hkept i c hc
    obtain ⟨d', hd', hdhash', hdvar', -, hdval'⟩ := hkept i' c' hc'
    have hlive : d.val ≠ none := by
      rw [hdval] at hval
      split at hval
      · exact absurd rfl hval
      · exact hval
    have hlive' : d'.val ≠ none := by
      rw [hdval'] at hval'
      split at hval'
      · exact absurd rfl hval'
      · exact hval'
    exact hinv.unique i i' d d' hd hd' hlive hlive' (hdhash.symm.trans (hhash'.trans hdhash'))
      (hdvar.symm.trans (hvar'.trans hdvar'))
  · have hlist := hinv.list
    cases before.getLast? with
    | none | some q => simpa [FcgiHash.setLink, FcgiHash.setVal] using hlist
  · intro i c' hc'
    obtain ⟨c, hc, -, -, hnext, -⟩ := hkept i c' hc'
    rw [hnext]
    exact hinv.listNext i c hc

theorem del_cases (hashValue : Nat) (var : List UInt8) :
    (h.fcgiHashDel hashValue var = h ∧ ∀ val, ¬ h.Live hashValue var val) ∨
    ∃ (before behind : List Nat) (a : Nat) (b : FcgiHashBucket),
      chains (hashValue &&& fcgiHashTableMask) = before ++ a :: behind ∧
      h.buckets[a]? = some b ∧ b.hashValue = hashValue ∧ b.var = var ∧
      h.fcgiHashDel hashValue var = (h.setVal a none).setLink
        (hashValue &&& fcgiHashTableMask) before.getLast? b.next := by
  have hl := hinv.linked (hashValue &&& fcgiHashTableMask)
  have hfuel := Nat.lt_succ_of_le (hl.length_le (hinv.nodup _))
  rcases delLoop_eq (q := none) hl hfuel with ⟨hsame, hnone⟩ |
      ⟨before, behind, a, b, hchain, hb, hhash, hvar, hdel⟩
  · refine .inl ⟨hsame, ?_⟩
    rintro val ⟨a, b, hb, hhash, hvar, hval⟩
    have hmiss := hnone a ((hinv.mem _ a).mpr ⟨b, hb, by simp [hval], by rw [hhash]⟩)
    rw [hb, any_some, (FcgiHash.hits_iff b).mpr ⟨hhash, hvar⟩] at hmiss
    cases hmiss
  · refine .inr ⟨before, behind, a, b, hchain, hb, hhash, hvar, ?_⟩
    rw [FcgiHash.fcgiHashDel, hdel, or_none]

/-- `fcgi_hash_del` keeps the table in order. -/
theorem del_inv (hashValue : Nat) (var : List UInt8) :
    ∃ chains', FcgiHashInv (h.fcgiHashDel hashValue var) chains' := by
  rcases hinv.del_cases hashValue var with ⟨hsame, -⟩ |
      ⟨before, behind, a, b, hchain, hb, hhash, -, hdel⟩
  · rw [hsame]
    exact ⟨chains, hinv⟩
  · rw [hdel]
    exact ⟨_, hinv.unlink_inv hchain hb hhash⟩

/-- `fcgi_hash_del` takes away the one key. -/
theorem del_live {hashValue' : Nat} {var' : List UInt8} :
    (h.fcgiHashDel hashValue var).Live hashValue' var' val' ↔
      ¬ (hashValue' = hashValue ∧ var' = var) ∧ h.Live hashValue' var' val' := by
  rcases hinv.del_cases hashValue var with ⟨hsame, hnone⟩ |
      ⟨before, behind, a, b, hchain, hb, hhash, hvar, hdel⟩
  · rw [hsame]
    refine (and_iff_right_of_imp ?_).symm
    rintro hlive ⟨rfl, rfl⟩
    exact hnone val' hlive
  · have hval : b.val ≠ none := by
      have hmem : a ∈ chains (hashValue &&& fcgiHashTableMask) := by
        rw [hchain]
        simp
      obtain ⟨b', hb', hlive, -⟩ := (hinv.mem _ a).mp hmem
      rw [hb] at hb'
      cases hb'
      exact hlive
    simp only [hdel, FcgiHash.Live, deleted_getElem?, map_eq_some_iff]
    constructor
    · rintro ⟨i, c', ⟨c, hc, rfl⟩, hkey⟩
      obtain ⟨hkhash, hkvar, hkval⟩ := hkey
      have hi : a ≠ i := by
        rintro rfl
        rw [if_pos rfl] at hkval
        cases hkval
      rw [if_neg hi] at hkval
      refine ⟨?_, i, c, hc, hkhash, hkvar, hkval⟩
      rintro ⟨rfl, rfl⟩
      have hlive : c.val ≠ none := by
        intro hnone
        rw [hnone] at hkval
        cases hkval
      exact hi (hinv.unique a i b c hb hc hval hlive
        (hhash.trans hkhash.symm) (hvar.trans hkvar.symm))
    · rintro ⟨hkey, i, c, hc, hkhash, hkvar, hkval⟩
      refine ⟨i, _, ⟨c, hc, rfl⟩, hkhash, hkvar, ?_⟩
      rw [if_neg]
      · exact hkval
      · rintro rfl
        rw [hb] at hc
        cases hc
        exact hkey ⟨hkhash.symm.trans hhash, hkvar.symm.trans hvar⟩

end

/-- The name and the value of a live bucket. -/
def visit (b : FcgiHashBucket) : Option (List UInt8 × List UInt8) :=
  b.val.map fun val => (b.var, val)

theorem visits_take (hb : buckets[a]? = some b) : (buckets.take (a + 1)).reverse.filterMap visit =
      (visit b).toList ++ (buckets.take a).reverse.filterMap visit := by
  rw [take_add_one, hb, toList_some, reverse_append, filterMap_append]
  cases hvisit : visit b with
  | none | some v => simp [hvisit]

theorem applyLoop_cons (hb : h.buckets[a]? = some b) :
    h.applyLoop (fuel + 1) (some a) = (visit b).toList ++ h.applyLoop fuel b.listNext := by
  rw [FcgiHash.applyLoop, hb]
  cases hval : b.val with
  | none | some val => simp [visit, hval]

theorem applyLoop_eq (hinv : FcgiHashInv h chains)
    (ha : a < h.buckets.length) (hfuel : a < fuel) : h.applyLoop fuel (some a) =
      (h.buckets.take (a + 1)).reverse.filterMap visit := by
  induction a generalizing fuel with
  | zero =>
    cases fuel with
    | zero => cases hfuel
    | succ fuel =>
      have hb := getElem?_eq_getElem ha
      have hend : h.applyLoop fuel none = [] := by cases fuel <;> rfl
      rw [applyLoop_cons hb, hinv.listNext 0 _ hb, if_pos rfl, hend, visits_take hb]
      rfl
  | succ a ih =>
    cases fuel with
    | zero => cases hfuel
    | succ fuel =>
      have hb := getElem?_eq_getElem ha
      rw [applyLoop_cons hb, hinv.listNext (a + 1) _ hb,
        if_neg (Nat.succ_ne_zero a), Nat.add_sub_cancel,
        ih (Nat.lt_of_succ_lt ha) (Nat.lt_of_succ_lt_succ hfuel),
        visits_take hb]

/-- `fcgi_hash_apply` visits the live buckets, the newest first. -/
theorem apply_eq (hinv : FcgiHashInv h chains) :
    h.fcgiHashApply = h.buckets.reverse.filterMap visit := by
  have hlist := hinv.list
  rw [FcgiHash.fcgiHashApply, hlist]
  by_cases hnil : h.buckets = []
  · rw [if_pos hnil, hnil]
    rfl
  · have hpos := length_pos_iff.mpr hnil
    rw [if_neg hnil, hinv.applyLoop_eq (by omega) (by omega), Nat.sub_add_cancel hpos, take_length]

theorem mem_apply (hinv : FcgiHashInv h chains) :
    (var, val) ∈ h.fcgiHashApply ↔ ∃ hashValue, h.Live hashValue var val := by
  rw [hinv.apply_eq, mem_filterMap]
  constructor
  · rintro ⟨b, hb, hvisit⟩
    obtain ⟨a, ha⟩ := getElem?_of_mem (mem_reverse.mp hb)
    obtain ⟨v, hv, heq⟩ := map_eq_some_iff.mp hvisit
    cases heq
    exact ⟨b.hashValue, a, b, ha, rfl, rfl, hv⟩
  · rintro ⟨hashValue, a, b, hb, -, rfl, hval⟩
    exact ⟨b, mem_reverse.mpr (mem_of_getElem? hb), by rw [visit, hval]; rfl⟩

end FcgiHashInv

end PhpEngine
