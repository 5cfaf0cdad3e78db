/-
The table that a list of pairs gives.  It is determined by the order in which
the keys come first and by the values that come last; a key is a name with the
hash value it is stored under.
-/
import PhpEngine.FcgiEnv

namespace PhpEngine

open List

/-- The key of a bucket. -/
def FcgiHashBucket.key (b : FcgiHashBucket) : Nat × List UInt8 :=
  (b.hashValue, b.var)

/-- The key under which a pair is stored. -/
def entryKey (e : Nat × FcgiParam) : Nat × List UInt8 :=
  (e.1, e.2.name)

/-- The keys in the order in which they come first. -/
def firstKeys (entries : List (Nat × FcgiParam)) : List (Nat × List UInt8) :=
  (entries.map entryKey).eraseDups

/-- The value that is stored last under a key. -/
def lastValue (entries : List (Nat × FcgiParam)) (key : Nat × List UInt8) : Option (List UInt8) :=
  (entries.reverse.find? fun e => entryKey e == key).map fun e => e.2.value

/-- The pairs come first in the same order and last with the same values, each
name taken with the hash value it is stored under. -/
structure FiledAlike (entries entries' : List (Nat × FcgiParam)) : Prop where
  order : firstKeys entries = firstKeys entries'
  values : ∀ key, lastValue entries key = lastValue entries' key

/-- A bucket without its value. -/
def FcgiHashBucket.bare (b : FcgiHashBucket) : FcgiHashBucket :=
  { b with val := none }

/-- The table without its values. -/
def FcgiHash.bare (h : FcgiHash) : FcgiHash :=
  { h with buckets := h.buckets.map FcgiHashBucket.bare }

/-- A new bucket without a value. -/
def FcgiHash.addBare (h : FcgiHash) (key : Nat × List UInt8) : FcgiHash :=
  { hashTable := fun i =>
      if i = key.1 &&& fcgiHashTableMask then some h.buckets.length
      else h.hashTable i
    list := some h.buckets.length
    buckets := h.buckets ++
      [⟨key.1, key.2, none, h.hashTable (key.1 &&& fcgiHashTableMask), h.list⟩] }

/-- A table into which `entries` were stored, with no deletion. -/
structure StoredAs (h : FcgiHash) (entries : List (Nat × FcgiParam)) : Prop where
  inv : ∃ chains, FcgiHashInv h chains
  keys : h.buckets.map FcgiHashBucket.key = firstKeys entries
  bare_eq : h.bare = (firstKeys entries).foldl FcgiHash.addBare .init
  alive : ∀ b ∈ h.buckets, b.val = lastValue entries b.key ∧ b.val ≠ none

theorem firstKeys_concat (entries : List (Nat × FcgiParam)) (e : Nat × FcgiParam) :
    firstKeys (entries ++ [e]) = if entryKey e ∈ firstKeys entries then firstKeys entries
      else firstKeys entries ++ [entryKey e] := by
  rw [firstKeys, firstKeys, map_append, map_singleton, eraseDups_append]
  by_cases hmem : entryKey e ∈ entries.map entryKey
  · rw [if_pos (mem_eraseDups.mpr hmem), List.removeAll, filter_singleton]
    simp only [elem_eq_mem, hmem, decide_true, Bool.not_true]
    exact append_nil _
  · rw [if_neg (mt mem_eraseDups.mp hmem), List.removeAll, filter_singleton]
    simp only [elem_eq_mem, hmem, decide_false, Bool.not_false]
    rfl

theorem lastValue_concat (entries : List (Nat × FcgiParam))
    (e : Nat × FcgiParam) (key : Nat × List UInt8) : lastValue (entries ++ [e]) key =
      if entryKey e = key then some e.2.value else lastValue entries key := by
  rw [lastValue, lastValue, reverse_append, reverse_singleton, singleton_append, find?_cons]
  by_cases hkey : entryKey e = key
  · rw [if_pos hkey, beq_iff_eq.mpr hkey]
    rfl
  · rw [if_neg hkey, beq_eq_false_iff_ne.mpr hkey]

theorem FcgiHashBucket.eq_of_bare {b b' : FcgiHashBucket}
    (hbare : b.bare = b'.bare) (hval : b.val = b'.val) : b = b' := by
  cases b
  cases b'
  simp only [FcgiHashBucket.bare, FcgiHashBucket.mk.injEq] at hbare hval ⊢
  exact ⟨hbare.1, hbare.2.1, hval, hbare.2.2.2⟩

theorem lastValue_of_not_mem {entries : List (Nat × FcgiParam)}
    {key : Nat × List UInt8} (h : key ∉ firstKeys entries) : lastValue entries key = none := by
  rw [lastValue, Option.map_eq_none_iff, find?_eq_none]
  intro e he hkey
  apply h
  rw [firstKeys, mem_eraseDups, ← beq_iff_eq.mp hkey]
  exact List.mem_map_of_mem (mem_reverse.mp he)

/-- A change that `f` does not see. -/
theorem map_modify_of_eq {α β : Type} {f : α → β} {g : α → α}
    (hfg : ∀ x, f (g x) = f x) (l : List α) (i : Nat) : (l.modify i g).map f = l.map f := by
  induction l generalizing i with
  | nil => rw [modify_nil]
  | cons x l ih =>
    cases i with
    | zero => rw [modify_zero_cons, map_cons, map_cons, hfg]
    | succ i => rw [modify_succ_cons, map_cons, map_cons, ih]

theorem init_storedAs : StoredAs .init [] where
  inv := ⟨_, FcgiHash.init_inv⟩
  keys := rfl
  bare_eq := rfl
  alive b hb := by cases hb

variable {h : FcgiHash} {entries : List (Nat × FcgiParam)}

section

variable (hs : StoredAs h entries)
include hs

theorem StoredAs.set_found {e : Nat × FcgiParam} {a : Nat} (hfind : h.find e.1 e.2.name = some a) :
    StoredAs (h.fcgiHashSet e.1 e.2.name e.2.value) (entries ++ [e]) := by
  obtain ⟨chains, hinv⟩ := hs.inv
  obtain ⟨-, b, hb, hhash, hvar, hval⟩ := hinv.find_some hfind
  have hkey : entryKey e = b.key := by
    rw [entryKey, FcgiHashBucket.key, hhash, hvar]
  have hmem : entryKey e ∈ firstKeys entries := by
    rw [← hs.keys, hkey]
    exact List.mem_map_of_mem (mem_of_getElem? hb)
  have hfirst : firstKeys (entries ++ [e]) = firstKeys entries := by
    rw [firstKeys_concat, if_pos hmem]
  have hset : h.fcgiHashSet e.1 e.2.name e.2.value = h.setVal a (some e.2.value) := by
    rw [FcgiHash.fcgiHashSet, hfind]
  constructor
  · exact hinv.set_inv _ _ _
  · rw [hfirst, hset, ← hs.keys, FcgiHash.setVal]
    apply map_modify_of_eq
    intro b
    rfl
  · rw [hfirst, hset, ← hs.bare_eq, FcgiHash.bare, FcgiHash.bare, FcgiHash.setVal]
    congr 1
    apply map_modify_of_eq
    intro b
    rfl
  · intro b' hb'
    obtain ⟨i, hi⟩ := getElem?_of_mem hb'
    rw [hset, FcgiHashInv.setVal_getElem?] at hi
    obtain ⟨c, hc, rfl⟩ := Option.map_eq_some_iff.mp hi
    have hlive := hs.alive c (mem_of_getElem? hc)
    by_cases hai : a = i
    · subst hai
      rw [hb] at hc
      cases hc
      rw [if_pos rfl, lastValue_concat]
      exact ⟨(if_pos hkey).symm, by simp⟩
    · have hne : entryKey e ≠ c.key := by
        intro heq
        have hsame := hkey.symm.trans heq
        exact hai (hinv.unique a i b c hb hc hval hlive.2
          (congrArg Prod.fst hsame) (congrArg Prod.snd hsame))
      rw [if_neg hai, lastValue_concat, if_neg hne]
      exact hlive

theorem StoredAs.set_new {e : Nat × FcgiParam} (hfind : h.find e.1 e.2.name = none) :
    StoredAs (h.fcgiHashSet e.1 e.2.name e.2.value) (entries ++ [e]) := by
  obtain ⟨chains, hinv⟩ := hs.inv
  have hnew : ∀ b ∈ h.buckets, entryKey e ≠ b.key := by
    intro b hb heq
    obtain ⟨a, ha⟩ := getElem?_of_mem hb
    obtain ⟨v, hv⟩ := Option.ne_none_iff_exists'.mp (hs.alive b hb).2
    exact hinv.find_none hfind v ⟨a, b, ha, (congrArg Prod.fst heq).symm,
      (congrArg Prod.snd heq).symm, hv⟩
  have hmem : entryKey e ∉ firstKeys entries := by
    rw [← hs.keys]
    intro hmem
    obtain ⟨b, hb, hkey⟩ := List.mem_map.mp hmem
    exact hnew b hb hkey.symm
  have hfirst : firstKeys (entries ++ [e]) = firstKeys entries ++ [entryKey e] := by
    rw [firstKeys_concat, if_neg hmem]
  have hset : h.fcgiHashSet e.1 e.2.name e.2.value =
      { hashTable := fun i =>
          if i = e.1 &&& fcgiHashTableMask then some h.buckets.length
          else h.hashTable i
        list := some h.buckets.length
        buckets := h.buckets ++ [⟨e.1, e.2.name, some e.2.value,
          h.hashTable (e.1 &&& fcgiHashTableMask), h.list⟩] } := by
    rw [FcgiHash.fcgiHashSet, hfind]
  constructor
  · exact hinv.set_inv _ _ _
  · rw [hfirst, hset, map_append, hs.keys]
    rfl
  · rw [hfirst, foldl_append, ← hs.bare_eq, hset]
    simp only [FcgiHash.bare, map_append, foldl_cons, foldl_nil, FcgiHash.addBare, length_map]
    rfl
  · intro b hb
    rw [hset] at hb
    rcases mem_append.mp hb with hold | hlast
    · rw [lastValue_concat, if_neg (hnew b hold)]
      exact hs.alive b hold
    · rw [mem_singleton.mp hlast, lastValue_concat]
      exact ⟨(if_pos rfl).symm, by simp⟩

theorem StoredAs.set (e : Nat × FcgiParam) :
    StoredAs (h.fcgiHashSet e.1 e.2.name e.2.value) (entries ++ [e]) := by
  cases hfind : h.find e.1 e.2.name with
  | some a => exact hs.set_found hfind
  | none => exact hs.set_new hfind

theorem StoredAs.storeAll (more : List (Nat × FcgiParam)) :
    StoredAs (storeAll h more) (entries ++ more) := by
  induction more generalizing h entries with
  | nil =>
    rw [append_nil]
    exact hs
  | cons e more ih =>
    have hrest := ih (hs.set e)
    rw [append_assoc] at hrest
    exact hrest

/-- The key and the value of every bucket determine the table. -/
theorem StoredAs.ext {h' : FcgiHash} {entries' : List (Nat × FcgiParam)}
    (hs' : StoredAs h' entries') (halike : FiledAlike entries entries') : h = h' := by
  have hbare : h.bare = h'.bare := by
    rw [hs.bare_eq, hs'.bare_eq, halike.order]
  have hbuckets : h.buckets = h'.buckets := by
    have hlength : h.buckets.length = h'.buckets.length := by
      have hkeys := hs.keys.trans (halike.order.trans hs'.keys.symm)
      simpa using congrArg List.length hkeys
    apply ext_getElem hlength
    intro i hi hi'
    have hsame : h.buckets[i].bare = h'.buckets[i].bare := by
      have hmaps := congrArg (fun t => t.buckets[i]?) hbare
      simpa [FcgiHash.bare, hi, hi'] using hmaps
    obtain ⟨hval, -⟩ := hs.alive _ (getElem_mem hi)
    obtain ⟨hval', -⟩ := hs'.alive _ (getElem_mem hi')
    have hkey : h.buckets[i].key = h'.buckets[i].key :=
      congrArg (fun b => b.key) hsame
    apply FcgiHashBucket.eq_of_bare hsame
    rw [hval, hval', halike.values, hkey]
  have htable : h.hashTable = h'.hashTable := by
    simpa [FcgiHash.bare] using congrArg FcgiHash.hashTable hbare
  have hlist : h.list = h'.list := by
    simpa [FcgiHash.bare] using congrArg FcgiHash.list hbare
  cases h
  simp only at htable hlist hbuckets
  rw [htable, hlist, hbuckets]

theorem StoredAs.filedAlike {entries' : List (Nat × FcgiParam)} (hs' : StoredAs h entries') :
    FiledAlike entries entries' := by
  have hkeys : firstKeys entries = firstKeys entries' :=
    hs.keys.symm.trans hs'.keys
  refine ⟨hkeys, fun key => ?_⟩
  by_cases hmem : key ∈ firstKeys entries
  · obtain ⟨b, hb, rfl⟩ := List.mem_map.mp (hs.keys ▸ hmem)
    rw [← (hs.alive b hb).1, (hs'.alive b hb).1]
  · rw [lastValue_of_not_mem hmem, lastValue_of_not_mem (hkeys ▸ hmem)]

end

/-- Two lists of pairs give the same table exactly if they are filed alike. -/
theorem storeAll_init_eq_iff (entries entries' : List (Nat × FcgiParam)) :
    storeAll .init entries = storeAll .init entries' ↔ FiledAlike entries entries' := by
  have hs : StoredAs (storeAll .init entries) entries :=
    init_storedAs.storeAll entries
  have hs' : StoredAs (storeAll .init entries') entries' :=
    init_storedAs.storeAll entries'
  constructor
  · intro heq
    rw [← heq] at hs'
    exact hs.filedAlike hs'
  · exact hs.ext hs'

end PhpEngine
