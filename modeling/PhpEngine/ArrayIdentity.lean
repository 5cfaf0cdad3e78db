/-
The identity of values.  `is_identical_function` compares arrays through
`zend_hash_compare`, which calls it back for the elements; what it decides is
the equality of the trees that the values unfold to.
-/
import PhpEngine.HashRun
import PhpEngine.CText

namespace PhpEngine

open List Function

namespace ArrayIdentity

/-- Why a comparison does not return: `zend_error(E_ERROR)` at too many nested iterations over
one table, or the bound on the recursion of the model. -/
inductive Abort where
  | nestingTooDeep
  | outOfFuel
deriving Repr, DecidableEq

/-- The difference of two `uint`s as an `int`. -/
def uintDifference (a b : Nat) : Int :=
  toInt ((a + (uintMod - b % uintMod)) % uintMod)

def memcmpResult (a b : List UInt8) : Int :=
  match memcmp a b with
  | .lt => -1
  | .eq => 0
  | .gt => 1

section Compare

-- The tables by address.  A comparison writes nothing but their recursion counters, which are
-- kept beside them: `counts` is `nApplyCount` of every table as it is at the moment.
variable {δ : Type} (intern : Nat → KeyBytes) (heap : Nat → HashTable δ)

/-- `HASH_PROTECT_RECURSION`. -/
def protectRecursion (ht : Nat) (counts : Nat → Nat) : Except Abort (Nat → Nat) :=
  if (heap ht).bApplyProtection then
    if 3 ≤ counts ht then .error .nestingTooDeep
    else .ok (update counts ht (counts ht + 1))
  else .ok counts

/-- `HASH_UNPROTECT_RECURSION`. -/
def unprotectRecursion (ht : Nat) (counts : Nat → Nat) : Nat → Nat :=
  if (heap ht).bApplyProtection then update counts ht (counts ht - 1) else counts

/-- What stands at every exit of `zend_hash_compare`: both counters go down, then it returns. -/
def leave (ht1 ht2 : Nat) (result : Int) (counts : Nat → Nat) : Int × (Nat → Nat) :=
  (result, unprotectRecursion heap ht2 (unprotectRecursion heap ht1 counts))

/-- The loop of `zend_hash_compare`.  An ordered comparison walks both lists at once, any other
one looks the keys of the first table up in the second. -/
def compareLoop (compar : (Nat → Nat) → δ → δ → Except Abort (Int × (Nat → Nat)))
    (ordered : Bool) (ht1 ht2 : Nat) :
    Nat → (Nat → Nat) → Option Addr → Option Addr → Except Abort (Int × (Nat → Nat))
  | 0, _, _, _ => .error .outOfFuel
  | _ + 1, counts, none, _ => .ok (leave heap ht1 ht2 0 counts)
  | fuel + 1, counts, some p1, p2 =>
    let next (pData2 : δ) (p2 : Option Addr) := do
      let (result, counts) ← compar counts ((heap ht1).pData p1) pData2
      if result ≠ 0 then return leave heap ht1 ht2 result counts
      else compareLoop compar ordered ht1 ht2 fuel counts ((heap ht1).pListNext p1) p2
    if ordered then
      match p2 with
      | none => .ok (leave heap ht1 ht2 1 counts)
      | some p2 =>
        if (heap ht1).nKeyLength p1 = 0 ∧ (heap ht2).nKeyLength p2 = 0 then
          if (heap ht1).h p1 ≠ (heap ht2).h p2 then
            .ok (leave heap ht1 ht2 (if (heap ht2).h p2 < (heap ht1).h p1 then 1 else -1) counts)
          else next ((heap ht2).pData p2) ((heap ht2).pListNext p2)
        else
          let result :=
            uintDifference ((heap ht1).nKeyLength p1) ((heap ht2).nKeyLength p2)
          if result ≠ 0 then .ok (leave heap ht1 ht2 result counts)
          else
            let result := memcmpResult
              ((bucketBytes intern (heap ht1) p1).take ((heap ht1).nKeyLength p1))
              ((bucketBytes intern (heap ht2) p2).take ((heap ht1).nKeyLength p1))
            if result ≠ 0 then .ok (leave heap ht1 ht2 result counts)
            else next ((heap ht2).pData p2) ((heap ht2).pListNext p2)
    else
      let found :=
        if (heap ht1).nKeyLength p1 = 0 then
          zendHashIndexFind (heap ht2) ((heap ht1).h p1)
        else
          zendHashQuickFind intern (heap ht2) (bucketKeyArg intern (heap ht1) p1) ((heap ht1).h p1)
      match found with
      | none => .error .outOfFuel
      | some none => .ok (leave heap ht1 ht2 1 counts)
      | some (some pData2) => next pData2 none

/-- `zend_hash_compare`. -/
def zendHashCompare (compar : (Nat → Nat) → δ → δ → Except Abort (Int × (Nat → Nat)))
    (ordered : Bool) (ht1 ht2 : Nat) (counts : Nat → Nat) : Except Abort (Int × (Nat → Nat)) := do
  let counts ← protectRecursion heap ht1 counts
  let counts ← protectRecursion heap ht2 counts
  let result := uintDifference (heap ht1).nNumOfElements (heap ht2).nNumOfElements
  if result ≠ 0 then return leave heap ht1 ht2 result counts
  else
    compareLoop intern heap compar ordered ht1 ht2 ((heap ht1).brk + 1) counts
      (heap ht1).pListHead (if ordered then (heap ht2).pListHead else none)

end Compare

/-- A value.  Arrays are addresses of tables, objects pairs of a handler table and a handle;
a constant that is not resolved yet is no value of a running script. -/
inductive Zval (D : Type) where
  | null
  | bool (lval : Int)
  | long (lval : Int)
  | double (dval : D)
  | string (str : List UInt8)
  | array (ht : Nat)
  | object (handlers handle : Nat)
  | resource (lval : Int)
  | constant (name : List UInt8)

/-- `Z_TYPE_P`. -/
inductive ZvalType where
  | isNull
  | isBool
  | isLong
  | isDouble
  | isString
  | isArray
  | isObject
  | isResource
  | isConstant
deriving Repr, DecidableEq

instance {D : Type} : Inhabited (Zval D) :=
  ⟨.null⟩

def Zval.type {D : Type} : Zval D → ZvalType
  | .null => .isNull
  | .bool _ => .isBool
  | .long _ => .isLong
  | .double _ => .isDouble
  | .string _ => .isString
  | .array _ => .isArray
  | .object _ _ => .isObject
  | .resource _ => .isResource
  | .constant _ => .isConstant

section Identical

-- `dvalEq` is the comparison of two doubles.
variable {D : Type} (intern : Nat → KeyBytes) (dvalEq : D → D → Bool)
  (heap : Nat → HashTable (Zval D))

/-- `hash_zval_identical_function`: zero where the values are identical. -/
def hashZvalIdenticalFunction (isIdentical : (Nat → Nat) → Zval D → Zval D →
      Except Abort ((Bool × ZendResult) × (Nat → Nat)))
    (counts : Nat → Nat) (z1 z2 : Zval D) : Except Abort (Int × (Nat → Nat)) := do
  let ((result, status), counts) ← isIdentical counts z1 z2
  if status = .failure then return (1, counts)
  else return (if result then 0 else 1, counts)

/-- `is_identical_function`: the result, the status and the recursion counters. -/
def isIdenticalFunction : Nat → (Nat → Nat) → Zval D → Zval D →
    Except Abort ((Bool × ZendResult) × (Nat → Nat))
  | 0, _, _, _ => .error .outOfFuel
  | fuel + 1, counts, op1, op2 =>
    if op1.type ≠ op2.type then .ok ((false, .success), counts)
    else
      match op1, op2 with
      | .null, .null => .ok ((true, .success), counts)
      | .bool l1, .bool l2 => .ok ((l1 == l2, .success), counts)
      | .long l1, .long l2 => .ok ((l1 == l2, .success), counts)
      | .resource l1, .resource l2 => .ok ((l1 == l2, .success), counts)
      | .double d1, .double d2 => .ok ((dvalEq d1 d2, .success), counts)
      | .string s1, .string s2 =>
        .ok ((s1.length == s2.length && memcmpResult s1 s2 == 0, .success), counts)
      | .array ht1, .array ht2 =>
        if ht1 = ht2 then .ok ((true, .success), counts)
        else do
          let (result, counts) ← zendHashCompare intern heap
            (hashZvalIdenticalFunction (isIdenticalFunction fuel)) true ht1 ht2 counts
          return ((result == 0, .success), counts)
      | .object handlers1 handle1, .object handlers2 handle2 =>
        if handlers1 = handlers2 then .ok ((handle1 == handle2, .success), counts)
        else .ok ((false, .success), counts)
      | _, _ => .ok ((false, .failure), counts)

end Identical

/-- The finite trees that values without doubles unfold to. -/
inductive PhpValue where
  | null
  | bool (lval : Int)
  | long (lval : Int)
  | string (str : List UInt8)
  | array (entries : List (HashKey × PhpValue))
  | object (handlers handle : Nat)
  | resource (lval : Int)

/-- Every array in the tree has a number of entries that its counter can hold. -/
inductive PhpValue.Counted : PhpValue → Prop
  | null : Counted .null
  | bool (lval : Int) : Counted (.bool lval)
  | long (lval : Int) : Counted (.long lval)
  | string (str : List UInt8) : Counted (.string str)
  | array {entries : List (HashKey × PhpValue)} : entries.length < uintMod →
      (∀ entry ∈ entries, Counted entry.2) → Counted (.array entries)
  | object (handlers handle : Nat) : Counted (.object handlers handle)
  | resource (lval : Int) : Counted (.resource lval)

section Denotes

variable {D : Type} (intern : Nat → KeyBytes) (heap : Nat → HashTable (Zval D))

/-- The value unfolds to the tree: its tables are well formed, and read in the order of their
lists they have the entries of the arrays. -/
inductive Denotes : Zval D → PhpValue → Prop
  | null : Denotes .null .null
  | bool (lval : Int) : Denotes (.bool lval) (.bool lval)
  | long (lval : Int) : Denotes (.long lval) (.long lval)
  | string (str : List UInt8) : Denotes (.string str) (.string str)
  | array {ht : Nat} {order : List Addr} (value : Addr → PhpValue) :
      HashInv intern (heap ht) order → (∀ p ∈ order, (heap ht).nKeyLength p < uintMod) →
      (∀ p ∈ order, Denotes ((heap ht).pData p) (value p)) →
      Denotes (.array ht) (.array (order.map fun p => (bucketKey intern (heap ht) p, value p)))
  | object (handlers handle : Nat) : Denotes (.object handlers handle) (.object handlers handle)
  | resource (lval : Int) : Denotes (.resource lval) (.resource lval)

/-- The table is the one of the value or of an element, at any depth. -/
inductive Occurs (t : Nat) : Zval D → Prop
  | here : Occurs t (.array t)
  | element {ht : Nat} {order : List Addr} {p : Addr} : ListInv (heap ht) order → p ∈ order →
      Occurs t ((heap ht).pData p) → Occurs t (.array ht)

/-- The recursion guards let a comparison of the values through: one iteration over a table
that occurs on one side, or two over a table that occurs on both, still fit. -/
structure Room (counts : Nat → Nat) (z1 z2 : Zval D) : Prop where
  first : ∀ t, Occurs heap t z1 → counts t ≤ 2
  second : ∀ t, Occurs heap t z2 → counts t ≤ 2
  both : ∀ t, Occurs heap t z1 → Occurs heap t z2 → counts t ≤ 1

end Denotes

section Unfolding

variable {δ : Type}

/-- Two readings of one global list go on alike from where they meet. -/
theorem listInv_unique {ht : HashTable δ} {before before' l l' : List Addr}
    (h : ListInv ht (before ++ l)) (h' : ListInv ht (before' ++ l'))
    (hhead : l.head? = l'.head?) : l = l' := by
  induction l generalizing before before' l' with
  | nil =>
    cases l' with
    | nil => rfl
    | cons q l' => cases hhead
  | cons p l ih =>
    cases l' with
    | nil => cases hhead
    | cons q l' =>
      obtain rfl : p = q := by simpa using hhead
      have hnext : l.head? = l'.head? := by
        rw [← h.next, ← h'.next]
      have hstep : ListInv ht ((before ++ [p]) ++ l) := by simpa using h
      have hstep' : ListInv ht ((before' ++ [p]) ++ l') := by simpa using h'
      rw [ih hstep hstep' hnext]

theorem listInv_order_eq {ht : HashTable δ} {order order' : List Addr}
    (h : ListInv ht order) (h' : ListInv ht order') : order = order' := by
  have hhead : order.head? = order'.head? := by rw [← h.head, ← h'.head]
  exact listInv_unique (nil_append order ▸ h) (nil_append order' ▸ h') hhead

variable {D : Type} {intern : Nat → KeyBytes} {heap : Nat → HashTable (Zval D)}

theorem Denotes.unique {z : Zval D} {v v' : PhpValue} (h : Denotes intern heap z v)
    (h' : Denotes intern heap z v') : v = v' := by
  induction h generalizing v' with
  | null => cases h'; rfl
  | bool lval | long lval | string str | object handlers handle | resource lval => cases h'; rfl
  | array value hinv _ _ ih =>
    cases h' with
    | array value' hinv' _ helements' =>
      obtain rfl := listInv_order_eq hinv.list hinv'.list
      congr 1
      apply map_congr_left
      intro p hp
      rw [ih p hp (helements' p hp)]

theorem sizeOf_element (entry : Addr → HashKey × PhpValue) {order : List Addr} {p : Addr}
    (hp : p ∈ order) : sizeOf (entry p).2 < sizeOf (PhpValue.array (order.map entry)) := by
  have hmem : entry p ∈ order.map entry := List.mem_map_of_mem hp
  have hlist := sizeOf_lt_of_mem hmem
  have hpair : sizeOf (entry p).2 < sizeOf (entry p) := by
    cases entry p
    simp
  rw [PhpValue.array.sizeOf_spec]
  omega

/-- A table that occurs in a value unfolds to a tree no larger than that of the value. -/
theorem Occurs.denotes {t : Nat} {z : Zval D} (h : Occurs heap t z) {v : PhpValue}
    (hv : Denotes intern heap z v) :
    ∃ v', Denotes intern heap (.array t) v' ∧ sizeOf v' ≤ sizeOf v := by
  induction h generalizing v with
  | here => exact ⟨v, hv, le_rfl⟩
  | element hlist hp _ ih =>
    cases hv with
    | array value hinv _ helements =>
      obtain rfl := listInv_order_eq hlist hinv.list
      obtain ⟨v', hv', hsize⟩ := ih (helements _ hp)
      refine ⟨v', hv', le_trans hsize (le_of_lt ?_)⟩
      exact sizeOf_element (fun p => (_, value p)) hp

theorem Denotes.not_occurs {t : Nat} {order : List Addr} {value : Addr → PhpValue}
    (hinv : HashInv intern (heap t) order) (hlength : ∀ p ∈ order, (heap t).nKeyLength p < uintMod)
    (helements : ∀ p ∈ order, Denotes intern heap ((heap t).pData p) (value p)) {p : Addr}
    (hp : p ∈ order) : ¬ Occurs heap t ((heap t).pData p) := by
  intro hoccurs
  obtain ⟨v', hv', hsize⟩ := hoccurs.denotes (helements p hp)
  obtain rfl := hv'.unique (.array value hinv hlength helements)
  exact absurd (sizeOf_element (fun p => (bucketKey intern (heap t) p, value p)) hp)
    (Nat.not_lt.mpr hsize)

end Unfolding

/-! The recursion counters. -/

section Counters

variable {δ : Type} {heap : Nat → HashTable δ}

/-- The guard stops at a table of which three iterations are under way; otherwise the counter
of this table goes up, and comes back when the protection ends. -/
theorem protectRecursion_cases (heap : Nat → HashTable δ) (ht : Nat) (counts : Nat → Nat) :
    (protectRecursion heap ht counts = .error .nestingTooDeep ∧ 3 ≤ counts ht) ∨
    ∃ counts', protectRecursion heap ht counts = .ok counts' ∧
      (∀ t, t ≠ ht → counts' t = counts t) ∧ counts' ht ≤ counts ht + 1 ∧
      unprotectRecursion heap ht counts' = counts := by
  rw [protectRecursion]
  by_cases hprotect : (heap ht).bApplyProtection = true
  · rw [if_pos hprotect]
    by_cases hdeep : 3 ≤ counts ht
    · rw [if_pos hdeep]
      exact .inl ⟨rfl, hdeep⟩
    · rw [if_neg hdeep]
      refine .inr ⟨_, rfl, fun t ht' => update_of_ne ht' _ _, ?_, ?_⟩
      · rw [update_self]
      · rw [unprotectRecursion, if_pos hprotect, update_self, Nat.add_sub_cancel,
          update_idem, update_eq_self]
  · rw [if_neg hprotect]
    refine .inr ⟨counts, rfl, fun _ _ => rfl, Nat.le_succ _, ?_⟩
    rw [unprotectRecursion, if_neg hprotect]

theorem unprotectRecursion_comm (ht1 ht2 : Nat) (counts : Nat → Nat) :
    unprotectRecursion heap ht2 (unprotectRecursion heap ht1 counts) =
      unprotectRecursion heap ht1 (unprotectRecursion heap ht2 counts) := by
  by_cases heq : ht1 = ht2
  · rw [heq]
  · unfold unprotectRecursion
    split
    · split
      · rw [update_of_ne (Ne.symm heq), update_of_ne heq, update_comm (Ne.symm heq)]
      · rfl
    · rfl

end Counters

/-! Every exit of `zend_hash_compare`. -/

section Exits

variable {δ : Type} {intern : Nat → KeyBytes} {heap : Nat → HashTable δ}
  {compar : (Nat → Nat) → δ → δ → Except Abort (Int × (Nat → Nat))}

theorem compareLoop_counts
    (hcompar : ∀ counts d1 d2 out, compar counts d1 d2 = .ok out → out.2 = counts)
    (ordered : Bool) (ht1 ht2 fuel : Nat) (counts : Nat → Nat) (p1 p2 : Option Addr)
    {out : Int × (Nat → Nat)}
    (h : compareLoop intern heap compar ordered ht1 ht2 fuel counts p1 p2 = .ok out) :
    out.2 = unprotectRecursion heap ht2 (unprotectRecursion heap ht1 counts) := by
  induction fuel generalizing counts p1 p2 with
  | zero => cases h
  | succ fuel ih =>
    cases p1 with
    | none =>
      cases h
      rfl
    | some p1 =>
      have hleave : ∀ result, Except.ok (leave heap ht1 ht2 result counts) =
          (.ok out : Except Abort _) →
          out.2 = unprotectRecursion heap ht2 (unprotectRecursion heap ht1 counts) := by
        intro result hout
        cases hout
        rfl
      have hnext : ∀ pData2 p2, (do
            let (result, counts) ← compar counts ((heap ht1).pData p1) pData2
            if result ≠ 0 then return leave heap ht1 ht2 result counts
            else
              compareLoop intern heap compar ordered ht1 ht2 fuel counts
                ((heap ht1).pListNext p1) p2) = .ok out →
          out.2 = unprotectRecursion heap ht2 (unprotectRecursion heap ht1 counts) := by
        intro pData2 p2 hout
        cases hresult : compar counts ((heap ht1).pData p1) pData2 with
        | error abort =>
          rw [hresult] at hout
          cases hout
        | ok answer =>
          obtain ⟨result, counts'⟩ := answer
          obtain rfl : counts' = counts := hcompar _ _ _ _ hresult
          rw [hresult] at hout
          change (if result ≠ 0 then _ else _) = _ at hout
          split at hout
          · exact hleave _ hout
          · exact ih _ _ _ hout
      unfold compareLoop at h
      simp only at h
      split at h
      · split at h
        · exact hleave _ h
        · split at h
          · split at h
            · exact hleave _ h
            · exact hnext _ _ h
          · split at h
            · exact hleave _ h
            · split at h
              · exact hleave _ h
              · exact hnext _ _ h
      · split at h
        · cases h
        · exact hleave _ h
        · exact hnext _ _ h

/-- Whatever is compared, and wherever the comparison ends, both counters are as they were. -/
theorem zendHashCompare_counts
    (hcompar : ∀ counts d1 d2 out, compar counts d1 d2 = .ok out → out.2 = counts)
    (ordered : Bool) (ht1 ht2 : Nat) (counts : Nat → Nat) {out : Int × (Nat → Nat)}
    (h : zendHashCompare intern heap compar ordered ht1 ht2 counts = .ok out) : out.2 = counts := by
  rw [zendHashCompare] at h
  rcases protectRecursion_cases heap ht1 counts with
    ⟨hstop, -⟩ | ⟨counts1, hcounts1, -, -, hback1⟩
  · rw [hstop] at h
    cases h
  rcases protectRecursion_cases heap ht2 counts1 with
    ⟨hstop, -⟩ | ⟨counts2, hcounts2, -, -, hback2⟩
  · rw [hcounts1] at h
    change (protectRecursion heap ht2 counts1 >>= _) = _ at h
    rw [hstop] at h
    cases h
  have hback : unprotectRecursion heap ht2 (unprotectRecursion heap ht1 counts2) = counts := by
    rw [unprotectRecursion_comm, hback2, hback1]
  rw [hcounts1] at h
  change (protectRecursion heap ht2 counts1 >>= _) = _ at h
  rw [hcounts2] at h
  change (if _ ≠ 0 then _ else _) = _ at h
  split at h
  · cases h
    exact hback
  · rw [compareLoop_counts hcompar ordered ht1 ht2 _ counts2 _ _ h, hback]

end Exits

/-! What an ordered comparison decides. -/

section Ordered

theorem uintDifference_eq_zero {a b : Nat} (ha : a < uintMod) (hb : b < uintMod) :
    uintDifference a b = 0 ↔ a = b := by
  rw [uintDifference, toInt]
  unfold uintMod at *
  split <;> omega

theorem memcmp_eq_iff {a b : List UInt8} (h : a.length = b.length) : memcmp a b = .eq ↔ a = b := by
  induction a generalizing b with
  | nil =>
    cases b with
    | nil => exact iff_of_true rfl rfl
    | cons y b => cases h
  | cons x a ih =>
    cases b with
    | nil => cases h
    | cons y b =>
      rw [memcmp, List.cons.injEq]
      by_cases hxy : x = y
      · rw [if_neg (not_not.mpr hxy), ih (Nat.succ.inj h)]
        exact ⟨fun hab => ⟨hxy, hab⟩, fun hab => hab.2⟩
      · rw [if_pos hxy, compare_eq_iff_eq]
        exact iff_of_false (fun heq => hxy (UInt8.toNat_inj.mp heq)) fun hab => hxy hab.1

theorem memcmpResult_eq_zero {a b : List UInt8} (h : a.length = b.length) :
    memcmpResult a b = 0 ↔ a = b := by
  rw [← memcmp_eq_iff h, memcmpResult]
  cases memcmp a b <;> simp

variable {δ : Type} {intern : Nat → KeyBytes} {heap : Nat → HashTable δ}
  {compar : (Nat → Nat) → δ → δ → Except Abort (Int × (Nat → Nat))}

variable (compar) in
/-- One round: where the keys agree the elements are compared, otherwise the loop is left. -/
theorem compareLoop_round {ht1 ht2 : Nat} {p1 p2 : Addr}
    (hok1 : BucketOk intern (heap ht1) p1) (hok2 : BucketOk intern (heap ht2) p2)
    (hlength1 : (heap ht1).nKeyLength p1 < uintMod)
    (hlength2 : (heap ht2).nKeyLength p2 < uintMod) (fuel : Nat) (counts : Nat → Nat) :
    ∃ result, result ≠ 0 ∧
      compareLoop intern heap compar true ht1 ht2 (fuel + 1) counts (some p1) (some p2) =
        if bucketKey intern (heap ht1) p1 = bucketKey intern (heap ht2) p2 then do
          let (result, counts) ← compar counts ((heap ht1).pData p1) ((heap ht2).pData p2)
          if result ≠ 0 then return leave heap ht1 ht2 result counts else
            compareLoop intern heap compar true ht1 ht2 fuel counts
              ((heap ht1).pListNext p1) ((heap ht2).pListNext p2)
        else .ok (leave heap ht1 ht2 result counts) := by
  rw [compareLoop.eq_def]
  simp only [if_true]
  by_cases hindex : (heap ht1).nKeyLength p1 = 0 ∧ (heap ht2).nKeyLength p2 = 0
  · have hkey : bucketKey intern (heap ht1) p1 = bucketKey intern (heap ht2) p2 ↔
        (heap ht1).h p1 = (heap ht2).h p2 := by
      rw [bucketKey, bucketKey, if_neg (not_not.mpr hindex.1), if_neg (not_not.mpr hindex.2),
        HashKey.long.injEq]
    refine ⟨if (heap ht2).h p2 < (heap ht1).h p1 then 1 else -1, by split <;> decide, ?_⟩
    rw [if_pos hindex]
    by_cases hh : (heap ht1).h p1 = (heap ht2).h p2
    · rw [if_neg (not_not.mpr hh), if_pos (hkey.mpr hh)]
    · rw [if_pos hh, if_neg (mt hkey.mp hh)]
  · rw [if_neg hindex]
    by_cases hlength : (heap ht1).nKeyLength p1 = (heap ht2).nKeyLength p2
    · -- Two string keys of one length: `memcmp` decides.
      have hpos1 : (heap ht1).nKeyLength p1 ≠ 0 := fun h => hindex ⟨h, hlength ▸ h⟩
      have hpos2 : (heap ht2).nKeyLength p2 ≠ 0 := hlength ▸ hpos1
      rw [BucketOk, if_neg hpos1] at hok1
      rw [BucketOk, if_neg hpos2] at hok2
      have hkey : bucketKey intern (heap ht1) p1 = bucketKey intern (heap ht2) p2 ↔
          bucketBytes intern (heap ht1) p1 = bucketBytes intern (heap ht2) p2 := by
        rw [bucketKey, bucketKey, if_pos hpos1, if_pos hpos2, hok1.2.1, hok2.2.1,
          take_length, take_length, HashKey.string.injEq]
      have hbytes : memcmpResult
          ((bucketBytes intern (heap ht1) p1).take ((heap ht1).nKeyLength p1))
          ((bucketBytes intern (heap ht2) p2).take ((heap ht1).nKeyLength p1)) = 0 ↔
          bucketBytes intern (heap ht1) p1 = bucketBytes intern (heap ht2) p2 := by
        have hsame : (bucketBytes intern (heap ht1) p1).length =
            (bucketBytes intern (heap ht2) p2).length := by
          rw [← hok1.2.1, ← hok2.2.1, hlength]
        rw [hok1.2.1, take_length, hsame, take_length]
        exact memcmpResult_eq_zero hsame
      rw [if_neg (not_not.mpr ((uintDifference_eq_zero hlength1 hlength2).mpr hlength))]
      by_cases hzero : bucketBytes intern (heap ht1) p1 = bucketBytes intern (heap ht2) p2
      · refine ⟨1, by decide, ?_⟩
        rw [if_neg (not_not.mpr (hbytes.mpr hzero)), if_pos (hkey.mpr hzero)]
      · refine ⟨_, mt hbytes.mp hzero, ?_⟩
        rw [if_pos (mt hbytes.mp hzero), if_neg (mt hkey.mp hzero)]
    · have hkey : bucketKey intern (heap ht1) p1 ≠ bucketKey intern (heap ht2) p2 := by
        intro heq
        rw [bucketKey, bucketKey] at heq
        by_cases hpos1 : (heap ht1).nKeyLength p1 = 0
        · rw [if_neg (not_not.mpr hpos1), if_pos fun h => hindex ⟨hpos1, h⟩] at heq
          cases heq
        · by_cases hpos2 : (heap ht2).nKeyLength p2 = 0
          · rw [if_pos hpos1, if_neg (not_not.mpr hpos2)] at heq
            cases heq
          · rw [BucketOk, if_neg hpos1] at hok1
            rw [BucketOk, if_neg hpos2] at hok2
            rw [if_pos hpos1, if_pos hpos2, hok1.2.1, hok2.2.1, take_length,
              take_length, HashKey.string.injEq] at heq
            exact hlength (by rw [hok1.2.1, hok2.2.1, heq])
      have hne := mt (uintDifference_eq_zero hlength1 hlength2).mp hlength
      refine ⟨_, hne, ?_⟩
      rw [if_pos hne, if_neg hkey]

/-- The loop over the rest of both lists: it finds no difference exactly where the entries it
has still to visit are the first of those of the other table.  `deep` is what a comparison of
two elements says when it does not return. -/
theorem compareLoop_ordered {α : Type} {ht1 ht2 : Nat} {order1 order2 : List Addr} {deep : Prop}
    (hinv1 : HashInv intern (heap ht1) order1) (hinv2 : HashInv intern (heap ht2) order2)
    (hlength1 : ∀ p ∈ order1, (heap ht1).nKeyLength p < uintMod)
    (hlength2 : ∀ p ∈ order2, (heap ht2).nKeyLength p < uintMod)
    (value1 value2 : Addr → α) (counts : Nat → Nat) (hcompar : ∀ p ∈ order1, ∀ q ∈ order2,
      (∃ r, compar counts ((heap ht1).pData p) ((heap ht2).pData q) = .ok (r, counts) ∧
        (r = 0 ↔ value1 p = value2 q)) ∨
      (compar counts ((heap ht1).pData p) ((heap ht2).pData q) = .error .nestingTooDeep ∧ deep))
    (done1 done2 l1 l2 : List Addr) (h1 : order1 = done1 ++ l1) (h2 : order2 = done2 ++ l2)
    (fuel : Nat) (hfuel : l1.length < fuel) :
    (∃ r, compareLoop intern heap compar true ht1 ht2 fuel counts l1.head? l2.head? =
        .ok (leave heap ht1 ht2 r counts) ∧
      (r = 0 ↔ l1.map (fun p => (bucketKey intern (heap ht1) p, value1 p)) <+:
        l2.map (fun q => (bucketKey intern (heap ht2) q, value2 q)))) ∨
    (compareLoop intern heap compar true ht1 ht2 fuel counts l1.head? l2.head? =
        .error .nestingTooDeep ∧ deep) := by
  induction l1 generalizing done1 done2 l2 fuel with
  | nil =>
    obtain ⟨n, rfl, -⟩ := exists_succ_of_lt hfuel
    exact .inl ⟨0, rfl, iff_of_true rfl nil_prefix⟩
  | cons p l1 ih =>
    obtain ⟨n, rfl, -⟩ := exists_succ_of_lt hfuel
    cases l2 with
    | nil =>
      refine .inl ⟨1, rfl, iff_of_false (by decide) fun hprefix => ?_⟩
      cases prefix_nil.mp hprefix
    | cons q l2 =>
      have hp : p ∈ order1 := by rw [h1]; exact mem_append_right _ mem_cons_self
      have hq : q ∈ order2 := by rw [h2]; exact mem_append_right _ mem_cons_self
      have hnext1 : (heap ht1).pListNext p = l1.head? := (h1 ▸ hinv1.list).next
      have hnext2 : (heap ht2).pListNext q = l2.head? := (h2 ▸ hinv2.list).next
      obtain ⟨r, hr, hround⟩ := compareLoop_round compar (hinv1.bucket p hp)
        (hinv2.bucket q hq) (hlength1 p hp) (hlength2 q hq) n counts
      rw [head?_cons, head?_cons, hround, map_cons, map_cons, cons_prefix_cons, Prod.mk.injEq]
      by_cases hkey : bucketKey intern (heap ht1) p = bucketKey intern (heap ht2) q
      · rw [if_pos hkey]
        rcases hcompar p hp q hq with ⟨answer, hanswer, hvalue⟩ | ⟨hstop, hdeep⟩
        · rw [hanswer]
          change (∃ r, (if answer ≠ 0 then _ else _) = _ ∧ _) ∨
            ((if answer ≠ 0 then _ else _) = _ ∧ _)
          by_cases hzero : answer = 0
          · rw [if_neg (not_not.mpr hzero), hnext1, hnext2]
            rcases ih (done1 ++ [p]) (done2 ++ [q]) l2 (by simpa using h1)
              (by simpa using h2) n (by simpa using hfuel) with ⟨r', hrun, hprefix⟩ | hdeep
            · refine .inl ⟨r', hrun, hprefix.trans ?_⟩
              exact ⟨fun h => ⟨⟨hkey, hvalue.mp hzero⟩, h⟩, fun h => h.2⟩
            · exact .inr hdeep
          · refine .inl ⟨answer, if_pos hzero, iff_of_false hzero fun h => ?_⟩
            exact hzero (hvalue.mpr h.1.2)
        · rw [hstop]
          exact .inr ⟨rfl, hdeep⟩
      · refine .inl ⟨r, if_neg hkey, iff_of_false hr fun h => hkey h.1.1⟩

end Ordered

/-! What `is_identical_function` decides. -/

section Identity

variable {D : Type} {intern : Nat → KeyBytes} {dvalEq : D → D → Bool}
  {heap : Nat → HashTable (Zval D)}

/-- The outcome of comparing values of the trees `v1` and `v2`: the answer is right and the
counters are as they were, or the recursion guard stopped at a table that it had no room for. -/
def Decides (heap : Nat → HashTable (Zval D)) (counts : Nat → Nat) (z1 z2 : Zval D)
    (v1 v2 : PhpValue) (outcome : Except Abort ((Bool × ZendResult) × (Nat → Nat))) : Prop :=
  (∃ r, outcome = .ok ((r, .success), counts) ∧ (r = true ↔ v1 = v2)) ∨
    (outcome = .error .nestingTooDeep ∧ ¬ Room heap counts z1 z2)

/-- Under the protection of two tables the elements of both still have room. -/
theorem Room.elements {ht1 ht2 : Nat} {order1 order2 : List Addr} {p q : Addr}
    {counts counts' : Nat → Nat} (hroom : Room heap counts (.array ht1) (.array ht2))
    (hlist1 : ListInv (heap ht1) order1) (hlist2 : ListInv (heap ht2) order2)
    (hp : p ∈ order1) (hq : q ∈ order2) (hout1 : ¬ Occurs heap ht1 ((heap ht1).pData p))
    (hout2 : ¬ Occurs heap ht2 ((heap ht2).pData q))
    (hother : ∀ t, t ≠ ht1 → t ≠ ht2 → counts' t = counts t)
    (hcount1 : counts' ht1 ≤ counts ht1 + 1) (hcount2 : counts' ht2 ≤ counts ht2 + 1) :
    Room heap counts' ((heap ht1).pData p) ((heap ht2).pData q) := by
  have hup1 : ∀ t, Occurs heap t ((heap ht1).pData p) → Occurs heap t (.array ht1) :=
    fun t ht => .element hlist1 hp ht
  have hup2 : ∀ t, Occurs heap t ((heap ht2).pData q) → Occurs heap t (.array ht2) :=
    fun t ht => .element hlist2 hq ht
  refine ⟨fun t ht => ?_, fun t ht => ?_, fun t ht ht' => ?_⟩
  · have hne : t ≠ ht1 := fun h => hout1 (h ▸ ht)
    by_cases heq : t = ht2
    · subst heq
      have := hroom.both t (hup1 t ht) .here
      omega
    · rw [hother t hne heq]
      exact hroom.first t (hup1 t ht)
  · have hne : t ≠ ht2 := fun h => hout2 (h ▸ ht)
    by_cases heq : t = ht1
    · subst heq
      have := hroom.both t .here (hup2 t ht)
      omega
    · rw [hother t heq hne]
      exact hroom.second t (hup2 t ht)
  · rw [hother t (fun h => hout1 (h ▸ ht)) (fun h => hout2 (h ▸ ht'))]
    exact hroom.both t (hup1 t ht) (hup2 t ht')

/-- The callback of the elements, from what `is_identical_function` decides. -/
theorem hashZvalIdenticalFunction_decides {fuel : Nat} {counts : Nat → Nat} {z1 z2 : Zval D}
    {v1 v2 : PhpValue} {deep : Prop}
    (h : Decides heap counts z1 z2 v1 v2 (isIdenticalFunction intern dvalEq heap fuel counts z1 z2))
    (hdeep : ¬ Room heap counts z1 z2 → deep) :
    (∃ r, hashZvalIdenticalFunction (isIdenticalFunction intern dvalEq heap fuel) counts z1 z2 =
        .ok (r, counts) ∧ (r = 0 ↔ v1 = v2)) ∨
    (hashZvalIdenticalFunction (isIdenticalFunction intern dvalEq heap fuel) counts z1 z2 =
        .error .nestingTooDeep ∧ deep) := by
  rw [hashZvalIdenticalFunction]
  rcases h with ⟨r, hr, hvalue⟩ | ⟨hstop, hroom⟩
  · refine .inl ⟨if r then 0 else 1, ?_, ?_⟩
    · rw [hr]
      rfl
    · rw [← hvalue]
      cases r <;> decide
  · rw [hstop]
    exact .inr ⟨rfl, hdeep hroom⟩

/-- Two arrays in different tables, given what is decided of their elements: no difference is
found where the element counters agree and the entries of the first array begin the second. -/
theorem zendHashCompare_decides {fuel ht1 ht2 : Nat} {order1 order2 : List Addr}
    {value1 value2 : Addr → PhpValue} {counts : Nat → Nat}
    (hne : ht1 ≠ ht2) (hinv1 : HashInv intern (heap ht1) order1)
    (hinv2 : HashInv intern (heap ht2) order2)
    (hlength1 : ∀ p ∈ order1, (heap ht1).nKeyLength p < uintMod)
    (hlength2 : ∀ p ∈ order2, (heap ht2).nKeyLength p < uintMod)
    (helements1 : ∀ p ∈ order1, Denotes intern heap ((heap ht1).pData p) (value1 p))
    (helements2 : ∀ q ∈ order2, Denotes intern heap ((heap ht2).pData q) (value2 q))
    (hdecides : ∀ counts, ∀ p ∈ order1, ∀ q ∈ order2,
      Decides heap counts ((heap ht1).pData p) ((heap ht2).pData q) (value1 p) (value2 q)
        (isIdenticalFunction intern dvalEq heap fuel counts ((heap ht1).pData p)
          ((heap ht2).pData q))) : (∃ r, zendHashCompare intern heap
        (hashZvalIdenticalFunction (isIdenticalFunction intern dvalEq heap fuel)) true ht1 ht2
        counts = .ok (r, counts) ∧ (r = 0 ↔ order1.length % uintMod = order2.length % uintMod ∧
        order1.map (fun p => (bucketKey intern (heap ht1) p, value1 p)) <+:
          order2.map (fun q => (bucketKey intern (heap ht2) q, value2 q)))) ∨
    (zendHashCompare intern heap
        (hashZvalIdenticalFunction (isIdenticalFunction intern dvalEq heap fuel)) true ht1 ht2
        counts = .error .nestingTooDeep ∧ ¬ Room heap counts (.array ht1) (.array ht2)) := by
  rw [zendHashCompare]
  rcases protectRecursion_cases heap ht1 counts with
    ⟨hstop, hdeep⟩ | ⟨counts1, hcounts1, hother1, hup1, hback1⟩
  · rw [hstop]
    refine .inr ⟨rfl, fun hroom => ?_⟩
    have := hroom.first ht1 .here
    omega
  rw [hcounts1]
  change (∃ r, (protectRecursion heap ht2 counts1 >>= _) = _ ∧ _) ∨
    ((protectRecursion heap ht2 counts1 >>= _) = _ ∧ _)
  rcases protectRecursion_cases heap ht2 counts1 with
    ⟨hstop, hdeep⟩ | ⟨counts2, hcounts2, hother2, hup2, hback2⟩
  · rw [hstop]
    refine .inr ⟨rfl, fun hroom => ?_⟩
    have := hroom.second ht2 .here
    rw [hother1 ht2 (Ne.symm hne)] at hdeep
    omega
  rw [hcounts2]
  have hback : ∀ r, leave heap ht1 ht2 r counts2 = (r, counts) := by
    intro r
    rw [leave, unprotectRecursion_comm, hback2, hback1]
  change (∃ r, (if uintDifference (heap ht1).nNumOfElements (heap ht2).nNumOfElements ≠ 0 then _
    else _) = _ ∧ _) ∨ ((if uintDifference (heap ht1).nNumOfElements
      (heap ht2).nNumOfElements ≠ 0 then _ else _) = _ ∧ _)
  have hsize : uintDifference (heap ht1).nNumOfElements (heap ht2).nNumOfElements = 0 ↔
      order1.length % uintMod = order2.length % uintMod := by
    rw [hinv1.count, hinv2.count]
    exact uintDifference_eq_zero (Nat.mod_lt _ (by decide)) (Nat.mod_lt _ (by decide))
  by_cases hzero : uintDifference (heap ht1).nNumOfElements (heap ht2).nNumOfElements = 0
  · rw [if_neg (not_not.mpr hzero), if_pos rfl,
      show (heap ht1).pListHead = order1.head? from hinv1.list.head,
      show (heap ht2).pListHead = order2.head? from hinv2.list.head]
    have hfuel : order1.length < (heap ht1).brk + 1 := Nat.lt_succ_of_le
      (length_le_of_nodup_lt hinv1.list.nodup hinv1.allocated)
    have hroom : ∀ p ∈ order1, ∀ q ∈ order2, Room heap counts (.array ht1) (.array ht2) →
        Room heap counts2 ((heap ht1).pData p) ((heap ht2).pData q) := by
      intro p hp q hq hroom
      refine hroom.elements hinv1.list hinv2.list hp hq
        (Denotes.not_occurs hinv1 hlength1 helements1 hp)
        (Denotes.not_occurs hinv2 hlength2 helements2 hq) ?_ ?_ ?_
      · intro t ht ht'
        rw [hother2 t ht', hother1 t ht]
      · rw [hother2 ht1 hne]
        exact hup1
      · rw [← hother1 ht2 (Ne.symm hne)]
        exact hup2
    have hcompar : ∀ p ∈ order1, ∀ q ∈ order2, _ := fun p hp q hq =>
      hashZvalIdenticalFunction_decides (hdecides counts2 p hp q hq) (mt (hroom p hp q hq))
    rcases compareLoop_ordered hinv1 hinv2 hlength1 hlength2 value1 value2 counts2 hcompar [] []
      order1 order2 rfl rfl _ hfuel with ⟨r, hrun, hprefix⟩ | hdeep
    · rw [hback] at hrun
      exact .inl ⟨r, hrun, hprefix.trans (and_iff_right (hsize.mp hzero)).symm⟩
    · exact .inr hdeep
  · rw [if_pos hzero, hback]
    exact .inl ⟨_, rfl, iff_of_false hzero fun h => hzero (hsize.mpr h.1)⟩

/-- Entries of which the others begin with the first and no more, by the counters. -/
theorem prefix_eq_iff {α β : Type} {order1 order2 : List β} {f g : β → α}
    (hcounted : order2.length < uintMod) :
    order1.length % uintMod = order2.length % uintMod ∧ order1.map f <+: order2.map g ↔
      order1.map f = order2.map g := by
  rw [Nat.mod_eq_of_lt hcounted]
  constructor
  · rintro ⟨hlength, hprefix⟩
    refine hprefix.eq_of_length_le ?_
    rw [length_map, length_map, ← hlength]
    exact Nat.mod_le _ _
  · intro heq
    have hlengths := congrArg List.length heq
    rw [length_map, length_map] at hlengths
    rw [hlengths, Nat.mod_eq_of_lt hcounted]
    exact ⟨rfl, heq ▸ prefix_rfl⟩

theorem string_identical {s1 s2 : List UInt8} :
    (s1.length == s2.length && memcmpResult s1 s2 == 0) = true ↔
      PhpValue.string s1 = PhpValue.string s2 := by
  rw [Bool.and_eq_true, beq_iff_eq, beq_iff_eq, PhpValue.string.injEq]
  constructor
  · exact fun h => (memcmpResult_eq_zero h.1).mp h.2
  · rintro rfl
    exact ⟨rfl, (memcmpResult_eq_zero rfl).mpr rfl⟩

theorem isIdenticalFunction_decides (fuel : Nat) {counts : Nat → Nat} {z1 z2 : Zval D}
    {v1 v2 : PhpValue} (h1 : Denotes intern heap z1 v1) (h2 : Denotes intern heap z2 v2)
    (hcounted : v2.Counted) (hfuel : sizeOf v1 < fuel) : Decides heap counts z1 z2 v1 v2
      (isIdenticalFunction intern dvalEq heap fuel counts z1 z2) := by
  induction fuel generalizing counts z1 z2 v1 v2 with
  | zero => exact absurd hfuel (Nat.not_lt_zero _)
  | succ fuel ih =>
    cases h1 with
    | null =>
      cases h2 with
      | null => exact .inl ⟨true, rfl, iff_of_true rfl rfl⟩
      | _ => exact .inl ⟨false, rfl, by simp⟩
    | bool l1 =>
      cases h2 with
      | bool l2 => exact .inl ⟨l1 == l2, rfl, by simp⟩
      | _ => exact .inl ⟨false, rfl, by simp⟩
    | long l1 =>
      cases h2 with
      | long l2 => exact .inl ⟨l1 == l2, rfl, by simp⟩
      | _ => exact .inl ⟨false, rfl, by simp⟩
    | resource l1 =>
      cases h2 with
      | resource l2 => exact .inl ⟨l1 == l2, rfl, by simp⟩
      | _ => exact .inl ⟨false, rfl, by simp⟩
    | string s1 =>
      cases h2 with
      | string s2 => exact .inl ⟨_, rfl, string_identical⟩
      | _ => exact .inl ⟨false, rfl, by simp⟩
    | object handlers1 handle1 =>
      cases h2 with
      | object handlers2 handle2 =>
        by_cases hhandlers : handlers1 = handlers2
        · exact .inl ⟨handle1 == handle2, if_pos hhandlers, by simp [hhandlers]⟩
        · exact .inl ⟨false, if_neg hhandlers, by simp [hhandlers]⟩
      | _ => exact .inl ⟨false, rfl, by simp⟩
    | @array ht1 order1 value1 hinv1 hlength1 helements1 =>
      cases h2 with
      | @array ht2 order2 value2 hinv2 hlength2 helements2 =>
        by_cases hsame : ht1 = ht2
        · refine .inl ⟨true, if_pos hsame, iff_of_true rfl ?_⟩
          subst hsame
          exact Denotes.unique (.array value1 hinv1 hlength1 helements1)
            (.array value2 hinv2 hlength2 helements2)
        · obtain ⟨hshort, hentries⟩ : order2.length < uintMod ∧
              ∀ q ∈ order2, (value2 q).Counted := by
            cases hcounted with
            | array hshort hentries =>
              refine ⟨by simpa using hshort, fun q hq => ?_⟩
              exact hentries _ (List.mem_map_of_mem hq)
          have hsmall : ∀ p ∈ order1, sizeOf (value1 p) < fuel := fun p hp =>
            lt_of_lt_of_le (sizeOf_element (fun p => (bucketKey intern (heap ht1) p, value1 p)) hp)
              (Nat.le_of_lt_succ hfuel)
          have hdecides : ∀ counts, ∀ p ∈ order1, ∀ q ∈ order2,
              Decides heap counts ((heap ht1).pData p) ((heap ht2).pData q) (value1 p)
                (value2 q) (isIdenticalFunction intern dvalEq heap fuel counts
                  ((heap ht1).pData p) ((heap ht2).pData q)) :=
            fun counts p hp q hq =>
              ih (helements1 p hp) (helements2 q hq) (hentries q hq) (hsmall p hp)
          have hcase : isIdenticalFunction intern dvalEq heap (fuel + 1) counts
              (.array ht1) (.array ht2) = (zendHashCompare intern heap
                (hashZvalIdenticalFunction (isIdenticalFunction intern dvalEq heap fuel))
                true ht1 ht2 counts).bind
                  fun out => .ok ((out.1 == 0, .success), out.2) := if_neg hsame
          rw [hcase]
          rcases zendHashCompare_decides hsame hinv1 hinv2 hlength1 hlength2 helements1
            helements2 hdecides with ⟨r, hrun, hvalue⟩ | ⟨hstop, hdeep⟩
          · rw [hrun]
            refine .inl ⟨r == 0, rfl, ?_⟩
            rw [beq_iff_eq, hvalue, prefix_eq_iff hshort, PhpValue.array.injEq]
          · rw [hstop]
            exact .inr ⟨rfl, hdeep⟩
      | _ => exact .inl ⟨false, rfl, by simp⟩

theorem room_of_le_one {counts : Nat → Nat} (h : ∀ t, counts t ≤ 1) (z1 z2 : Zval D) :
    Room heap counts z1 z2 :=
  ⟨fun t _ => Nat.le_succ_of_le (h t), fun t _ => Nat.le_succ_of_le (h t), fun t _ _ => h t⟩

/-- Values that unfold to finite trees of counted arrays, the ones a comparison decides. -/
def FiniteValue (intern : Nat → KeyBytes) (heap : Nat → HashTable (Zval D)) : Type :=
  { z : Zval D // ∃ v, Denotes intern heap z v ∧ v.Counted }

def Identical (intern : Nat → KeyBytes) (dvalEq : D → D → Bool)
    (heap : Nat → HashTable (Zval D)) (counts : Nat → Nat) (z1 z2 : Zval D) : Prop :=
  ∃ bound, ∀ fuel, bound < fuel → isIdenticalFunction intern dvalEq heap fuel counts z1 z2 =
    .ok ((true, .success), counts)

theorem identical_iff {counts : Nat → Nat} (hcounts : ∀ t, counts t ≤ 1) {z1 z2 : Zval D}
    {v1 v2 : PhpValue} (h1 : Denotes intern heap z1 v1) (h2 : Denotes intern heap z2 v2)
    (hcounted : v2.Counted) : Identical intern dvalEq heap counts z1 z2 ↔ v1 = v2 := by
  have hrun : ∀ fuel, sizeOf v1 < fuel → ∃ r, isIdenticalFunction intern dvalEq heap fuel
      counts z1 z2 = .ok ((r, .success), counts) ∧ (r = true ↔ v1 = v2) := by
    intro fuel hfuel
    have hdecides : Decides heap counts z1 z2 v1 v2
        (isIdenticalFunction intern dvalEq heap fuel counts z1 z2) :=
      isIdenticalFunction_decides fuel h1 h2 hcounted hfuel
    rcases hdecides with h | ⟨-, hroom⟩
    · exact h
    · exact absurd (room_of_le_one hcounts z1 z2) hroom
  constructor
  · rintro ⟨bound, hbound⟩
    obtain ⟨r, hr, hvalue⟩ := hrun (max bound (sizeOf v1) + 1) (by omega)
    rw [hbound _ (by omega), Except.ok.injEq, Prod.mk.injEq, Prod.mk.injEq] at hr
    exact hvalue.mp hr.1.1.symm
  · intro heq
    refine ⟨sizeOf v1, fun fuel hfuel => ?_⟩
    obtain ⟨r, hr, hvalue⟩ := hrun fuel hfuel
    rw [hr, hvalue.mpr heq]

theorem isIdenticalFunction_counts (fuel : Nat) {counts : Nat → Nat} {z1 z2 : Zval D}
    {out : (Bool × ZendResult) × (Nat → Nat)}
    (h : isIdenticalFunction intern dvalEq heap fuel counts z1 z2 = .ok out) : out.2 = counts := by
  induction fuel generalizing counts z1 z2 out with
  | zero => cases h
  | succ fuel ih =>
    have hcompar : ∀ counts z1 z2 out, hashZvalIdenticalFunction
        (isIdenticalFunction intern dvalEq heap fuel) counts z1 z2 = .ok out →
        out.2 = counts := by
      intro counts z1 z2 out hout
      rw [hashZvalIdenticalFunction] at hout
      cases hanswer : isIdenticalFunction intern dvalEq heap fuel counts z1 z2 with
      | error abort =>
        rw [hanswer] at hout
        cases hout
      | ok answer =>
        obtain ⟨⟨r, status⟩, counts'⟩ := answer
        obtain rfl : counts' = counts := ih hanswer
        rw [hanswer] at hout
        change (if status = .failure then _ else _) = _ at hout
        split at hout <;> cases hout <;> rfl
    unfold isIdenticalFunction at h
    split at h
    · cases h
      rfl
    · split at h
      case h_7 ht1 ht2 _ =>
        split at h
        · cases h
          rfl
        · cases hcompare : zendHashCompare intern heap (hashZvalIdenticalFunction
              (isIdenticalFunction intern dvalEq heap fuel)) true ht1 ht2 counts with
          | error abort =>
            rw [hcompare] at h
            cases h
          | ok answer =>
            rw [hcompare] at h
            cases h
            exact zendHashCompare_counts hcompar true ht1 ht2 counts hcompare
      case h_8 =>
        split at h <;> cases h <;> rfl
      all_goals
        cases h
        rfl

end Identity

theorem denotes_init {D : Type} {intern : Nat → KeyBytes} {heap : Nat → HashTable (Zval D)}
    {t : Nat} (h : heap t = zendHashInit 8) : Denotes intern heap (.array t) (.array []) := by
  have hinv : HashInv intern (heap t) [] := by
    rw [h]
    exact (zendHashInit_represents intern 8).inv
  have hempty := Denotes.array (fun _ => .null) hinv (by simp) (by simp)
  exact hempty

theorem mapRun_keys_long (intern : Nat → KeyBytes) {δ : Type} [Inhabited δ] (data : δ) (n : Nat)
    (maps : Nat → OrderedMap δ) (hkeys : ∀ key ∈ (maps 0).keys, ∃ h, key = .long h) :
    ∀ key ∈ ((mapRun (List.replicate n (HashOp.table 0
      (TableOp.nextIndexInsert data : TableOp intern δ))) maps).1 0).keys, ∃ h, key = .long h := by
  induction n generalizing maps with
  | zero => exact hkeys
  | succ n ih =>
    rw [replicate_succ, mapRun]
    refine ih _ fun key hkey => ?_
    simp only [HashOp.spec, TableOp.spec, mapAnswer, update_self] at hkey
    rw [OrderedMap.addOrUpdate] at hkey
    split at hkey
    · exact hkeys key hkey
    · by_cases hmem : HashKey.long (maps 0).nextFree ∈ (maps 0).keys
      · rw [OrderedMap.keys_store_of_mem hmem] at hkey
        exact hkeys key hkey
      · rw [OrderedMap.store, if_neg hmem] at hkey
        simp only [OrderedMap.keys, map_append, mem_append] at hkey
        rcases hkey with hold | hnew
        · exact hkeys key hold
        · exact ⟨_, by simpa using hnew⟩

theorem hashInv_setAllData {δ : Type} {intern : Nat → KeyBytes} {ht : HashTable δ}
    {order : List Addr} (h : HashInv intern ht order) (data : Addr → δ) :
    HashInv intern { ht with pData := data } order :=
  ⟨⟨h.size, h.mask, h.uninitialized, h.list, h.count, h.internalPointer, h.keys, h.bucket,
    h.allocated, h.applyCount⟩, h.chain⟩

end ArrayIdentity

end PhpEngine
