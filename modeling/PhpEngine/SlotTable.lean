/-
The slot table of the unserializer: pushes and replacements in any order, and what is read
back of them.
-/
import PhpEngine.Unserializer

namespace PhpEngine

open List

/-- All chunks but the last are full, and the last is not empty. -/
def Chunked : List (List Nat) → Prop
  | [] => True
  | [last] => 0 < last.length ∧ last.length ≤ varEntriesMax
  | chunk :: rest => chunk.length = varEntriesMax ∧ Chunked rest

theorem varPush_chunked {l : List (List Nat)} (h : Chunked l) (z : Nat) :
    Chunked (varPush l z) ∧ (varPush l z).flatten = l.flatten ++ [z] := by
  fun_induction varPush l z with
  | case1 z => exact ⟨⟨by simp, by simp [varEntriesMax]⟩, rfl⟩
  | case2 last z hfull =>
    exact ⟨⟨hfull, by simp, by simp [varEntriesMax]⟩, by simp⟩
  | case3 last z hroom =>
    refine ⟨⟨by simp, ?_⟩, by simp⟩
    have hle := h.2
    rw [length_append, length_singleton]
    omega
  | case4 chunk next rest z ih =>
    have hrest := ih h.2
    have hne : varPush (next :: rest) z ≠ [] := by
      intro heq
      have hflat := hrest.2
      rw [heq] at hflat
      simp at hflat
    obtain ⟨first, tail, heq⟩ := exists_cons_of_ne_nil hne
    refine ⟨?_, by rw [flatten_cons, hrest.2]; simp⟩
    rw [heq] at hrest ⊢
    exact ⟨h.1, hrest.1⟩

theorem varAccess_eq {l : List (List Nat)} (h : Chunked l) (id : Nat) :
    varAccess l id = l.flatten[id]? := by
  induction l generalizing id with
  | nil => rfl
  | cons chunk rest ih =>
    rw [varAccess, flatten_cons]
    by_cases hnext : varEntriesMax ≤ id ∧ chunk.length = varEntriesMax
    · have hrest : Chunked rest := by
        cases rest with
        | nil => exact trivial
        | cons next tail => exact h.2
      rw [if_pos ⟨by exact_mod_cast hnext.1, hnext.2⟩,
        getElem?_append_right (by omega), hnext.2, ← ih hrest]
      congr 1
      omega
    · rw [if_neg (by rintro ⟨hle, hlen⟩; exact hnext ⟨by omega, hlen⟩)]
      by_cases hlt : id < chunk.length
      · rw [if_neg (by omega), getElem?_append_left hlt]
        rfl
      · have hlast : rest = [] := by
          cases rest with
          | nil => rfl
          | cons next tail =>
            exact absurd ⟨by rw [← h.1]; omega, h.1⟩ hnext
        rw [if_pos (by omega), hlast, flatten_nil, append_nil, getElem?_eq_none (by omega)]

/-- The body of the loop in `var_replace`. -/
def replaceSlot (ozval nzval z : Nat) : Nat :=
  if z = ozval then nzval else z

def varReplace (l : List (List Nat)) (ozval nzval : Nat) : List (List Nat) :=
  l.map fun chunk => chunk.map (replaceSlot ozval nzval)

inductive SlotCall where
  | push (z : Nat)
  | replace (ozval nzval : Nat)

def slotCall (l : List (List Nat)) : SlotCall → List (List Nat)
  | .push z => varPush l z
  | .replace ozval nzval => varReplace l ozval nzval

/-- What a call makes of a zval that was pushed before it. -/
def SlotCall.replaced (z : Nat) : SlotCall → Nat
  | .push _ => z
  | .replace ozval nzval => replaceSlot ozval nzval z

/-- The zvals that are pushed, each after the replacements behind it. -/
def pushed : List SlotCall → List Nat
  | [] => []
  | .push z :: calls => calls.foldl SlotCall.replaced z :: pushed calls
  | .replace _ _ :: calls => pushed calls

theorem varReplace_chunked {l : List (List Nat)} (h : Chunked l) (ozval nzval : Nat) :
    Chunked (varReplace l ozval nzval) ∧
      (varReplace l ozval nzval).flatten = l.flatten.map (replaceSlot ozval nzval) := by
  refine ⟨?_, map_flatten.symm⟩
  induction l with
  | nil => trivial
  | cons chunk rest ih =>
    cases rest with
    | nil => simpa [varReplace, Chunked] using h
    | cons next rest => exact ⟨(length_map _).trans h.1, ih h.2⟩

theorem slotCalls_chunked (calls : List SlotCall) {l : List (List Nat)} (h : Chunked l) :
    Chunked (calls.foldl slotCall l) ∧ (calls.foldl slotCall l).flatten =
      l.flatten.map (fun z => calls.foldl SlotCall.replaced z) ++ pushed calls := by
  induction calls generalizing l with
  | nil => exact ⟨h, by simp [pushed]⟩
  | cons call calls ih =>
    cases call with
    | push z =>
      obtain ⟨hchunked, hflat⟩ := varPush_chunked h z
      refine (ih hchunked).imp_right fun heq => heq.trans ?_
      rw [hflat, map_append, append_assoc]
      rfl
    | replace ozval nzval =>
      obtain ⟨hchunked, hflat⟩ := varReplace_chunked h ozval nzval
      refine (ih hchunked).imp_right fun heq => heq.trans ?_
      rw [hflat, map_map]
      rfl

end PhpEngine
