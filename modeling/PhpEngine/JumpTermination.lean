/-
Whether the loops of pass 3 end.  The hit list of a loop holds at most one entry for each
opline, so the loops that ask it end; the loop for JMP_SET does not ask it, and ends exactly
where the JMPs that it follows do.
-/
import PhpEngine.JumpLoops
import Mathlib.Data.List.Nodup
import Mathlib.Data.List.Perm.Subperm

namespace PhpEngine

open List Option

namespace JumpTermination

variable {op : ZendOp} {fuel m fuel' : Nat} {r : List ZendOp × List Nat} {hitlist : List Nat}
    {B : List ZendOp}

/-! Hit lists. -/

section Hits

/-- The entries of a hit list are different, and each is read from an opline that was
visited. -/
structure Hits (last : Nat) (entry : Nat → Nat) (hitlist : List Nat) : Prop where
  nodup : hitlist.Nodup
  visited : ∃ visited : List Nat, hitlist = visited.map entry ∧ ∀ v ∈ visited, v < last

variable {last : Nat} {entry : Nat → Nat} {hitlist : List Nat}

theorem Hits.nil : Hits last entry [] :=
  ⟨nodup_nil, [], rfl, by simp⟩

theorem Hits.push (h : Hits last entry hitlist) {v : Nat} (hv : v < last)
    (hnew : entry v ∉ hitlist) : Hits last entry (hitlist ++ [entry v]) := by
  obtain ⟨hnodup, visited, rfl, hlast⟩ := h
  refine ⟨?_, visited ++ [v], by simp, ?_⟩
  · refine nodup_append.mpr ⟨hnodup, nodup_singleton _, ?_⟩
    intro t ht u hu htu
    rw [mem_singleton.mp hu] at htu
    exact hnew (htu ▸ ht)
  · intro u hu
    rcases mem_append.mp hu with hu | hu
    · exact hlast u hu
    · rwa [mem_singleton.mp hu]

theorem Hits.length_le (h : Hits last entry hitlist) : hitlist.length ≤ last := by
  obtain ⟨hnodup, visited, rfl, hlast⟩ := h
  have hsub : visited ⊆ List.range last := fun v hv => mem_range.mpr (hlast v hv)
  simpa using (subperm_of_subset hnodup.of_map hsub).length_le

end Hits

/-- The hit list that the loop for JMPZ and JMPNZ ends with. -/
def jmpzHitlist (n : Nat) : Nat → List ZendOp → List Nat → List Nat
  | 0, _, hitlist => hitlist
  | fuel + 1, opcodes, hitlist =>
    let op := opAt opcodes n
    let target := opAt opcodes op.op2.num
    if op.op2.num < opcodes.length then
      if target.opcode = .jmp then
        if target.op1.num ∈ hitlist then hitlist
        else
          jmpzHitlist n fuel (opcodes.set n (op.setOp2 target.op1.num))
            (hitlist ++ [target.op1.num])
      else if target.opcode = op.opcode ∧ sameVar op.op1 target.op1 then
        if target.op2.num ∈ hitlist then hitlist
        else
          jmpzHitlist n fuel (opcodes.set n (op.setOp2 target.op2.num))
            (hitlist ++ [target.op2.num])
      else hitlist
    else hitlist

/-- The hit list that the loop for JMPZ_EX and JMPNZ_EX ends with. -/
def jmpzExHitlist (n : Nat) : Nat → List ZendOp → Operand → List Nat → List Nat
  | 0, _, _, hitlist => hitlist
  | fuel + 1, opcodes, t, hitlist =>
    let op := opAt opcodes n
    let target := opAt opcodes op.op2.num
    if op.op2.num < opcodes.length then
      if sameOpcodeEx op.opcode target.opcode ∧ sameVar target.op1 t then
        let t := if target.opcode = op.opcode then target.result else t
        if target.op2.num ∈ hitlist then hitlist
        else
          jmpzExHitlist n fuel (opcodes.set n (op.setOp2 target.op2.num)) t
            (hitlist ++ [target.op2.num])
      else if target.opcode = .jmpznz ∧ sameVar target.op1 t then
        if target.op2.num ∈ hitlist then hitlist
        else
          jmpzExHitlist n fuel (opcodes.set n (op.setOp2 (if op.opcode = .jmpzEx then
              target.op2.num else target.extendedValue))) t
            (hitlist ++ [target.op2.num])
      else hitlist
    else hitlist

/-- The hit list that a loop through plain JMPs ends with. -/
def jmpsHitlist (r : Option (List ZendOp × List Nat)) : List Nat :=
  (r.map Prod.snd).getD []

/-- `jmp_hitlist` at the end of the turn at `n`. -/
def turnHitlist (n fuel : Nat) (opcodes : List ZendOp) : List Nat :=
  let op := opAt opcodes n
  match op.opcode with
  | .jmp =>
    if op.op1.num = n + 1 then []
    else jmpsHitlist (threadJmps n (fun op => op.op1.num) ZendOp.setOp1 fuel opcodes [])
  | .jmpz | .jmpnz => if op.op2.num = n + 1 then [] else jmpzHitlist n fuel opcodes []
  | .jmpzEx | .jmpnzEx =>
    if op.op2.num = n + 1 then [] else jmpzExHitlist n fuel opcodes op.result []
  | .jmpznz =>
    jmpsHitlist <|
      (threadJmps n (fun op => op.op2.num) ZendOp.setOp2 fuel opcodes []).bind fun r =>
        threadJmps n (fun op => op.extendedValue) ZendOp.setExt fuel r.1 r.2
  | _ => []

section Loops

variable {n : Nat} {base : List ZendOp}

/-- The oplines of a loop at `n`: the others are as they were. -/
structure Frame (n : Nat) (base A : List ZendOp) : Prop where
  length : A.length = base.length
  other : ∀ v, v ≠ n → opAt A v = opAt base v

theorem Frame.refl : Frame n base base :=
  ⟨rfl, fun _ _ => rfl⟩

theorem Frame.set {A : List ZendOp} (h : Frame n base A) (op : ZendOp) :
    Frame n base (A.set n op) := by
  refine ⟨by rw [length_set, h.length], fun v hv => ?_⟩
  rw [opAt_set_ne hv, h.other v hv]

/-- A field that holds a target: of a JMP it is the first operand. -/
structure Field (kind : Opcode) (get : ZendOp → Nat) (set : ZendOp → Nat → ZendOp) : Prop where
  opcode_set : ∀ op t, (set op t).opcode = op.opcode
  first : ∀ op, kind = .jmp → get op = op.op1.num

theorem field_jmp : Field .jmp (fun op => op.op1.num) ZendOp.setOp1 :=
  ⟨fun _ _ => rfl, fun _ _ => rfl⟩

theorem field_jmpznz_op2 : Field .jmpznz (fun op => op.op2.num) ZendOp.setOp2 :=
  ⟨fun _ _ => rfl, fun _ h => absurd h (by decide)⟩

theorem field_jmpznz_ext : Field .jmpznz (fun op => op.extendedValue) ZendOp.setExt :=
  ⟨fun _ _ => rfl, fun _ h => absurd h (by decide)⟩

/-- A loop at an opline with an opcode of `kinds` whose hit list is in order. -/
structure Looping (kinds : Opcode → Prop) (entry : Nat → Nat) (n : Nat) (base A : List ZendOp)
    (hitlist : List Nat) : Prop where
  frame : Frame n base A
  kind : kinds (opAt A n).opcode
  hits : Hits base.length entry hitlist

variable {kinds : Opcode → Prop} {entry : Nat → Nat} {A : List ZendOp} {hitlist : List Nat}

theorem Looping.start (h : kinds (opAt base n).opcode) : Looping kinds entry n base base [] :=
  ⟨Frame.refl, h, Hits.nil⟩

theorem Looping.push (h : Looping kinds entry n base A hitlist) {v t : Nat}
    (hn : n < base.length) (hop : kinds op.opcode) (hv : v < A.length) (ht : t = entry v)
    (hnew : t ∉ hitlist) : Looping kinds entry n base (A.set n op) (hitlist ++ [t]) := by
  subst ht
  refine ⟨h.frame.set op, ?_, h.hits.push (h.frame.length ▸ hv) hnew⟩
  rw [opAt_set_eq (h.frame.length ▸ hn)]
  exact hop

/-- The entry that a visit of the JMP at `v` makes in the hit list of a loop at `n`. -/
def jmpEntry (n : Nat) (base : List ZendOp) (v : Nat) : Nat :=
  if v = n then n else (opAt base v).op1.num

section Jmps

variable {kind : Opcode} {get : ZendOp → Nat} {set : ZendOp → Nat → ZendOp}
  {s s' : List ZendOp × List Nat}

section

variable (hfield : Field kind get set) (hn : n < base.length)
include hfield hn

theorem JmpsTurn.looping (h : Looping (· = kind) (jmpEntry n base) n base s.1 s.2)
    (hturn : JmpsTurn n get set s s') :
    Looping (· = kind) (jmpEntry n base) n base s'.1 s'.2 := by
  obtain ⟨hlt, hjmp, hmem, rfl⟩ := hturn
  refine h.push hn ((hfield.opcode_set _ _).trans h.kind) hlt ?_ hmem
  by_cases hself : get (opAt s.1 n) = n
  · rw [hself, h.kind] at hjmp
    rw [jmpEntry, if_pos hself, hself, ← hfield.first _ hjmp, hself]
  · rw [jmpEntry, if_neg hself, h.frame.other _ hself]

theorem threadJmps_looping (h : Looping (· = kind) (jmpEntry n base) n base A hitlist)
    (hrun : threadJmps n get set fuel A hitlist = some r) :
    Looping (· = kind) (jmpEntry n base) n base r.1 r.2 := by
  refine (threadJmps_isLoop n get set).result (s := (A, hitlist))
    (Q := fun s r => Looping (· = kind) (jmpEntry n base) n base s.1 s.2 →
      Looping (· = kind) (jmpEntry n base) n base r.1 r.2) ?_ ?_ hrun h
  · rintro s r rfl h
    exact h
  · intro s s' r hturn ih h
    exact ih (JmpsTurn.looping hfield hn h hturn)

/-- With fuel for one turn more than there are oplines the loop through JMPs ends. -/
theorem threadJmps_ends (h : Looping (· = kind) (jmpEntry n base) n base A hitlist)
    (hfuel : base.length < fuel + hitlist.length) :
    ∃ r, threadJmps n get set fuel A hitlist = some r := by
  refine (threadJmps_isLoop n get set).ends (s := (A, hitlist))
    (I := fun s => Looping (· = kind) (jmpEntry n base) n base s.1 s.2) (g := fun s => s.2.length)
    (fun s h => h.hits.length_le) (fun s s' h hturn => ?_) h hfuel
  refine ⟨JmpsTurn.looping hfield hn h hturn, ?_⟩
  obtain ⟨-, -, -, rfl⟩ := hturn
  simp

end

end Jmps

/-- The entry that a visit of the opline at `v` makes in the hit list of a JMPZ at `n`. -/
def jmpzEntry (n : Nat) (base : List ZendOp) (v : Nat) : Nat :=
  if v = n then n
  else if (opAt base v).opcode = .jmp then (opAt base v).op1.num
  else (opAt base v).op2.num

section Jmpz

variable {s s' : List ZendOp × List Nat}

theorem JmpzTurn.looping (hn : n < base.length)
    (h : Looping (· ≠ .jmp) (jmpzEntry n base) n base s.1 s.2) (hturn : JmpzTurn n s s') :
    Looping (· ≠ .jmp) (jmpzEntry n base) n base s'.1 s'.2 := by
  obtain ⟨hlt, t, ht, hmem, rfl⟩ := hturn
  refine h.push hn h.kind hlt ?_ hmem
  by_cases hself : (opAt s.1 n).op2.num = n
  · rcases ht with ⟨hjmp, -⟩ | ⟨-, -, -, rfl⟩
    · rw [hself] at hjmp
      exact absurd hjmp h.kind
    · rw [jmpzEntry, if_pos hself, hself, hself]
  · rw [jmpzEntry, if_neg hself, ← h.frame.other _ hself]
    rcases ht with ⟨hjmp, rfl⟩ | ⟨hjmp, -, -, rfl⟩
    · rw [if_pos hjmp]
    · rw [if_neg hjmp]

theorem threadJmpz_ends (hn : n < base.length)
    (h : Looping (· ≠ .jmp) (jmpzEntry n base) n base A hitlist)
    (hfuel : base.length < fuel + hitlist.length) :
    ∃ A', threadJmpz n fuel A hitlist = some A' := by
  refine (threadJmpz_isLoop n).ends (s := (A, hitlist))
    (I := fun s => Looping (· ≠ .jmp) (jmpzEntry n base) n base s.1 s.2) (g := fun s => s.2.length)
    (fun s h => h.hits.length_le) (fun s s' h hturn => ?_) h hfuel
  refine ⟨JmpzTurn.looping hn h hturn, ?_⟩
  obtain ⟨-, t, -, -, rfl⟩ := hturn
  simp

theorem jmpzHitlist_hits (hn : n < base.length) (fuel : Nat)
    (h : Looping (· ≠ .jmp) (jmpzEntry n base) n base A hitlist) :
    Hits base.length (jmpzEntry n base) (jmpzHitlist n fuel A hitlist) := by
  induction fuel generalizing A hitlist with
  | zero => exact h.hits
  | succ fuel ih =>
    have hagain : ∀ {t}, (opAt A n).op2.num < A.length →
        JmpzTarget (opAt A n) (opAt A (opAt A n).op2.num) t →
        Hits base.length (jmpzEntry n base) (if t ∈ hitlist then hitlist
          else jmpzHitlist n fuel (A.set n ((opAt A n).setOp2 t)) (hitlist ++ [t])) := by
      intro t hlt ht
      split
      case isTrue => exact h.hits
      case isFalse hmem =>
        exact ih (JmpzTurn.looping (s := (A, hitlist)) hn h ⟨hlt, t, ht, hmem, rfl⟩)
    rw [jmpzHitlist]
    split
    case isTrue hlt =>
      split
      case isTrue hjmp => exact hagain hlt (.inl ⟨hjmp, rfl⟩)
      case isFalse hjmp =>
        split
        case isTrue hsame => exact hagain hlt (.inr ⟨hjmp, hsame.1, hsame.2, rfl⟩)
        case isFalse => exact h.hits
    case isFalse => exact h.hits

end Jmpz

/-- The entry that a visit of the opline at `v` makes in the hit list of a JMPZ_EX at `n`. -/
def jmpzExEntry (n : Nat) (base : List ZendOp) (v : Nat) : Nat :=
  if v = n then n else (opAt base v).op2.num

section JmpzEx

variable {s s' : List ZendOp × Operand × List Nat}

theorem JmpzExTurn.looping (hn : n < base.length)
    (h : Looping (fun _ => True) (jmpzExEntry n base) n base s.1 s.2.2)
    (hturn : JmpzExTurn n s s') :
    Looping (fun _ => True) (jmpzExEntry n base) n base s'.1 s'.2.2 := by
  obtain ⟨hlt, hmem, u, t, rfl⟩ := hturn
  refine h.push hn trivial hlt ?_ hmem
  by_cases hself : (opAt s.1 n).op2.num = n
  · rw [jmpzExEntry, if_pos hself, hself, hself]
  · rw [jmpzExEntry, if_neg hself, ← h.frame.other _ hself]

theorem threadJmpzEx_ends (hn : n < base.length) {t : Operand}
    (h : Looping (fun _ => True) (jmpzExEntry n base) n base A hitlist)
    (hfuel : base.length < fuel + hitlist.length) :
    ∃ A', threadJmpzEx n fuel A t hitlist = some A' := by
  refine (threadJmpzEx_isLoop n).ends (s := (A, t, hitlist))
    (I := fun s => Looping (fun _ => True) (jmpzExEntry n base) n base s.1 s.2.2)
    (g := fun s => s.2.2.length) (fun s h => h.hits.length_le) (fun s s' h hturn => ?_) h hfuel
  refine ⟨JmpzExTurn.looping hn h hturn, ?_⟩
  obtain ⟨-, -, u, t, rfl⟩ := hturn
  simp

theorem jmpzExHitlist_hits (hn : n < base.length) (fuel : Nat) (t : Operand)
    (h : Looping (fun _ => True) (jmpzExEntry n base) n base A hitlist) :
    Hits base.length (jmpzExEntry n base) (jmpzExHitlist n fuel A t hitlist) := by
  induction fuel generalizing A t hitlist with
  | zero => exact h.hits
  | succ fuel ih =>
    have hagain : ∀ u t, (opAt A n).op2.num < A.length → Hits base.length (jmpzExEntry n base)
          (if (opAt A (opAt A n).op2.num).op2.num ∈ hitlist then hitlist
          else jmpzExHitlist n fuel (A.set n ((opAt A n).setOp2 u)) t
            (hitlist ++ [(opAt A (opAt A n).op2.num).op2.num])) := by
      intro u t hlt
      split
      case isTrue => exact h.hits
      case isFalse hmem =>
        exact ih _ (JmpzExTurn.looping (s := (A, t, hitlist)) hn h ⟨hlt, hmem, u, t, rfl⟩)
    rw [jmpzExHitlist]
    split
    case isTrue hlt =>
      split
      case isTrue => exact hagain _ _ hlt
      case isFalse =>
        split
        case isTrue => exact hagain _ _ hlt
        case isFalse => exact h.hits
    case isFalse => exact h.hits

end JmpzEx

end Loops

/-! JMP_SET. -/

section JmpSet

/-- Whether following the JMPs from `m` on one leaves them. -/
inductive JumpsEnd (opcodes : List ZendOp) : Nat → Prop where
  | stop (m : Nat) (h : ¬(m < opcodes.length ∧ (opAt opcodes m).opcode = .jmp)) : JumpsEnd opcodes m
  | next (m : Nat) (h : m < opcodes.length ∧ (opAt opcodes m).opcode = .jmp)
      (rest : JumpsEnd opcodes (opAt opcodes m).op1.num) : JumpsEnd opcodes m

variable {n : Nat} {A : List ZendOp}

theorem JumpsEnd.replace (h : JumpsEnd A m) (hop : op.opcode ≠ .jmp)
    (n : Nat) : JumpsEnd (A.set n op) m := by
  induction h with
  | stop m h =>
    refine .stop m fun ⟨hlt, hjmp⟩ => h ?_
    rw [length_set] at hlt
    by_cases hm : m = n
    · rw [hm] at hjmp hlt
      rw [opAt_set_eq hlt] at hjmp
      exact absurd hjmp hop
    · rw [opAt_set_ne hm] at hjmp
      exact ⟨hlt, hjmp⟩
  | next m h rest ih =>
    by_cases hm : m = n
    · refine .stop m fun hjmp => hop ?_
      rw [hm, opAt_set_eq (hm ▸ h.1)] at hjmp
      exact hjmp.2
    · refine .next m ⟨by rw [length_set]; exact h.1, by rw [opAt_set_ne hm]; exact h.2⟩ ?_
      rw [opAt_set_ne hm]
      exact ih

theorem set_opAt (A : List ZendOp) (n : Nat) : A.set n (opAt A n) = A := by
  by_cases hn : n < A.length
  · simp [opAt, hn]
  · exact set_eq_of_length_le (Nat.le_of_not_lt hn)

theorem jumpsEnd_set_iff (hold : (opAt A n).opcode ≠ .jmp)
    (hnew : op.opcode ≠ .jmp) : JumpsEnd (A.set n op) m ↔ JumpsEnd A m := by
  refine ⟨fun h => ?_, fun h => h.replace hnew n⟩
  have hback := h.replace hold n
  rwa [set_set, set_opAt] at hback

/-- The loop for JMP_SET ends exactly where the JMPs behind its target do. -/
theorem threadJmpSet_ends_iff (hn : n < A.length) (hop : (opAt A n).opcode ≠ .jmp) :
    (∃ fuel A', threadJmpSet n fuel A = some A') ↔ JumpsEnd A (opAt A n).op2.num := by
  constructor
  · rintro ⟨fuel, A', hrun⟩
    refine (threadJmpSet_isLoop n).result (Q := fun A _ => n < A.length →
      (opAt A n).opcode ≠ .jmp → JumpsEnd A (opAt A n).op2.num) ?_ ?_ hrun hn hop
    · rintro A A' ⟨-, hstop⟩ - -
      exact .stop _ hstop
    · rintro A _ A' ⟨hlt, hjmp, rfl⟩ ih hn hop
      have hnext := ih (by rwa [length_set]) (by rw [opAt_set_eq hn]; exact hop)
      have hnew : ((opAt A n).setOp2 (opAt A (opAt A n).op2.num).op1.num).opcode ≠ .jmp := hop
      rw [opAt_set_eq hn, jumpsEnd_set_iff hop hnew] at hnext
      exact .next _ ⟨hlt, hjmp⟩ hnext
  · intro h
    generalize hm : (opAt A n).op2.num = m at h
    -- The oplines of the turns differ at `n` only, which is not among the JMPs.
    have hrun : ∀ B : List ZendOp, Frame n A B → (opAt B n).opcode ≠ .jmp →
        (opAt B n).op2.num = m → ∃ fuel A', threadJmpSet n fuel B = some A' := by
      clear hm
      induction h with
      | stop m h =>
        intro B hframe hB hm
        refine ⟨1, B, ?_⟩
        rw [threadJmpSet, if_neg]
        rintro ⟨hlt, hjmp⟩
        rw [hm] at hlt hjmp
        by_cases hmn : m = n
        · exact hB (hmn ▸ hjmp)
        · exact h ⟨hframe.length ▸ hlt, hframe.other m hmn ▸ hjmp⟩
      | next m h rest ih =>
        intro B hframe hB hm
        have hmn : m ≠ n := by
          rintro rfl
          exact hop h.2
        have hat := @opAt_set_eq B n ((opAt B n).setOp2 (opAt A m).op1.num) (hframe.length ▸ hn)
        obtain ⟨fuel, A', hrun⟩ := ih (B.set n ((opAt B n).setOp2 (opAt A m).op1.num))
          (hframe.set _) (by rw [hat]; exact hB) (by rw [hat]; rfl)
        refine ⟨fuel + 1, A', ?_⟩
        rw [threadJmpSet, hm, hframe.other m hmn, if_pos ⟨hframe.length ▸ h.1, h.2⟩]
        exact hrun
    exact hrun A Frame.refl hop hm

end JmpSet

/-! JMPs that end still end when some of them are shortened. -/

section Shortening

/-- What a turn at `n` does to the JMPs: where they ended they end, and the JMP_SETs behind `n`
are as they were. -/
structure Shortened (n : Nat) (A A' : List ZendOp) : Prop where
  length : A'.length = A.length
  ends : ∀ m, JumpsEnd A m → JumpsEnd A' m
  kept : ∀ k, n < k → (opAt A' k).opcode = .jmpSet ∨ (opAt A' k).opcode = .jmpSetVar →
    opAt A' k = opAt A k

variable {n : Nat} {A A' : List ZendOp}

theorem Shortened.refl (n : Nat) (A : List ZendOp) : Shortened n A A :=
  ⟨rfl, fun _ h => h, fun _ _ _ => rfl⟩

theorem Shortened.trans {A'' : List ZendOp} (h : Shortened n A A')
    (h' : Shortened n A' A'') : Shortened n A A'' := by
  refine ⟨h'.length.trans h.length, fun m hm => h'.ends m (h.ends m hm), fun k hk hop => ?_⟩
  have hsecond := h'.kept k hk hop
  rw [hsecond, h.kept k hk (hsecond ▸ hop)]

theorem Shortened.replace (hop : op.opcode ≠ .jmp) : Shortened n A (A.set n op) := by
  refine ⟨length_set, fun m hm => hm.replace hop n, fun k hk _ => ?_⟩
  rw [opAt_set_ne (ne_of_gt hk)]

/-- The last turn of a loop has replaced the opline, if it has done anything. -/
theorem Shortened.of_last (h : A' = A ∨ ∃ op, A' = A.set n op ∧ op.opcode ≠ .jmp) :
    Shortened n A A' := by
  rcases h with rfl | ⟨op, rfl, hop⟩
  · exact .refl n A'
  · exact .replace hop

theorem Shortened.nop (m : Nat) (op : ZendOp) : Shortened n A (A.set m op.makeNop) := by
  refine ⟨length_set, fun k hk => hk.replace (by simp [ZendOp.makeNop]) m, fun k hk hop => ?_⟩
  rw [opAt_set] at hop ⊢
  split
  · rename_i hkm
    rw [if_pos hkm] at hop
    exact absurd hop (by simp [ZendOp.makeNop])
  · rfl

theorem Shortened.thread (hop : (opAt A n).opcode = .jmp) (hlt : (opAt A n).op1.num < A.length)
    (hjmp : (opAt A (opAt A n).op1.num).opcode = .jmp) :
    Shortened n A (A.set n ((opAt A n).setOp1 (opAt A (opAt A n).op1.num).op1.num)) := by
  refine ⟨length_set, fun m hm => ?_, fun k hk _ => by rw [opAt_set_ne (ne_of_gt hk)]⟩
  induction hm with
  | stop m h =>
    refine .stop m fun ⟨hm, hmjmp⟩ => h ?_
    rw [length_set] at hm
    by_cases hmn : m = n
    · rw [hmn]
      exact ⟨hmn ▸ hm, hop⟩
    · rw [opAt_set_ne hmn] at hmjmp
      exact ⟨hm, hmjmp⟩
  | next m h rest ih =>
    by_cases hmn : m = n
    · subst hmn
      by_cases hself : (opAt A m).op1.num = m
      · rw [hself] at ih ⊢
        exact ih
      · have hrest : JumpsEnd (A.set m ((opAt A m).setOp1
            (opAt A (opAt A m).op1.num).op1.num)) (opAt A (opAt A m).op1.num).op1.num := by
          cases ih with
          | stop _ hstop =>
            refine absurd ⟨?_, ?_⟩ hstop
            · rwa [length_set]
            · rwa [opAt_set_ne hself]
          | next _ _ rest => rwa [opAt_set_ne hself] at rest
        refine .next m ⟨by rw [length_set]; exact h.1, ?_⟩ ?_
        · rw [opAt_set_eq h.1]
          exact hop
        · rw [opAt_set_eq h.1]
          exact hrest
    · refine .next m ⟨by rw [length_set]; exact h.1, ?_⟩ ?_
      · rw [opAt_set_ne hmn]
        exact h.2
      · rw [opAt_set_ne hmn]
        exact ih

theorem threadJmps_shortened (hn : n < A.length) (hop : (opAt A n).opcode = .jmp)
    (h : threadJmps n (fun op => op.op1.num) ZendOp.setOp1 fuel A hitlist = some r) :
    Shortened n A r.1 := by
  refine (threadJmps_isLoop n _ _).result (s := (A, hitlist)) (Q := fun s r =>
    n < s.1.length → (opAt s.1 n).opcode = .jmp → Shortened n s.1 r.1) ?_ ?_ h hn hop
  · rintro s r rfl - -
    exact .refl n _
  · rintro s _ r ⟨hlt, hjmp, -, rfl⟩ ih hn hop
    refine (Shortened.thread hop hlt hjmp).trans (ih (by rwa [length_set]) ?_)
    rw [opAt_set_eq hn]
    exact hop

theorem threadJmps_replaces {kind : Opcode} {get : ZendOp → Nat} {set : ZendOp → Nat → ZendOp}
    (hfield : Field kind get set) (hn : n < A.length) (hop : (opAt A n).opcode ≠ .jmp)
    (h : threadJmps n get set fuel A hitlist = some r) :
    Shortened n A r.1 ∧ (opAt r.1 n).opcode = (opAt A n).opcode := by
  refine (threadJmps_isLoop n get set).result (s := (A, hitlist)) (Q := fun s r =>
    n < s.1.length → (opAt s.1 n).opcode ≠ .jmp →
      Shortened n s.1 r.1 ∧ (opAt r.1 n).opcode = (opAt s.1 n).opcode) ?_ ?_ h hn hop
  · rintro s r rfl - -
    exact ⟨.refl n _, rfl⟩
  · rintro s _ r ⟨-, -, -, rfl⟩ ih hn hop
    have hset := hfield.opcode_set (opAt s.1 n) (opAt s.1 (get (opAt s.1 n))).op1.num
    have hnew := hset ▸ hop
    have hat : (opAt (s.1.set n (set (opAt s.1 n) (opAt s.1 (get (opAt s.1 n))).op1.num))
        n).opcode = (opAt s.1 n).opcode := by rw [opAt_set_eq hn, hset]
    obtain ⟨hrest, hkept⟩ := ih (by rwa [length_set]) (hat ▸ hop)
    exact ⟨(Shortened.replace hnew).trans hrest, hkept.trans hat⟩

/-- A turn for a conditional jump goes on from a state that is shortened. -/
theorem Shortened.retarget (hn : n < A.length) (hop : (opAt A n).opcode ≠ .jmp) (t : Nat)
    (ih : n < (A.set n ((opAt A n).setOp2 t)).length →
      (opAt (A.set n ((opAt A n).setOp2 t)) n).opcode ≠ .jmp →
      Shortened n (A.set n ((opAt A n).setOp2 t)) A') : Shortened n A A' := by
  have hnew : ((opAt A n).setOp2 t).opcode ≠ .jmp := hop
  exact (Shortened.replace hnew).trans (ih (by rwa [length_set])
    (by rw [opAt_set_eq hn]; exact hop))

theorem threadJmpSet_shortened (hn : n < A.length)
    (hop : (opAt A n).opcode ≠ .jmp) (h : threadJmpSet n fuel A = some A') : Shortened n A A' := by
  refine (threadJmpSet_isLoop n).result (Q := fun A A' =>
    n < A.length → (opAt A n).opcode ≠ .jmp → Shortened n A A') ?_ ?_ h hn hop
  · rintro A A' ⟨rfl, -⟩ - -
    exact .refl n _
  · rintro A _ A' ⟨-, -, rfl⟩ ih hn hop
    exact .retarget hn hop _ ih

theorem jmpEx_ne_jmp (opcode : Opcode) : jmpEx opcode ≠ .jmp := by
  unfold jmpEx
  split <;> simp

theorem threadJmpz_shortened (hn : n < A.length)
    (hop : (opAt A n).opcode ≠ .jmp) (h : threadJmpz n fuel A hitlist = some A') :
    Shortened n A A' := by
  refine (threadJmpz_isLoop n).result (s := (A, hitlist)) (Q := fun s A' =>
    n < s.1.length → (opAt s.1 n).opcode ≠ .jmp → Shortened n s.1 A') ?_ ?_ h hn hop
  · intro s A' hstop _ hop
    refine .of_last (hstop.imp_right ?_)
    rintro ⟨-, op', ⟨-, ⟨-, rfl⟩ | ⟨-, rfl⟩ | ⟨-, rfl⟩⟩, rfl⟩
    · exact ⟨_, rfl, jmpEx_ne_jmp _⟩
    · exact ⟨_, rfl, hop⟩
    · exact ⟨_, rfl, jmpEx_ne_jmp _⟩
  · rintro s _ A' ⟨-, t, -, -, rfl⟩ ih hn hop
    exact .retarget hn hop t ih

theorem threadJmpzEx_shortened {t : Operand} (hn : n < A.length) (hop : (opAt A n).opcode ≠ .jmp)
    (h : threadJmpzEx n fuel A t hitlist = some A') : Shortened n A A' := by
  refine (threadJmpzEx_isLoop n).result (s := (A, t, hitlist)) (Q := fun s A' =>
    n < s.1.length → (opAt s.1 n).opcode ≠ .jmp → Shortened n s.1 A') ?_ ?_ h hn hop
  · intro s A' hstop _ hop
    refine .of_last (hstop.imp_right ?_)
    rintro ⟨u, rfl⟩
    exact ⟨_, rfl, hop⟩
  · rintro s _ A' ⟨-, -, u, t, rfl⟩ ih hn hop
    exact .retarget hn hop u ih

theorem Rewriting.apply_shortened {w : Rewriting} (hop : w.op.opcode ≠ .jmp) :
    Shortened n A (w.apply A n) := by
  rw [Rewriting.apply]
  split
  · exact .replace hop
  · exact (Shortened.replace hop).trans (.nop _ _)

theorem rewriteAssign_opcode {assigned : Opcode} :
    (rewriteAssign A n assigned).op.opcode = assigned ∨
      (rewriteAssign A n assigned).op.opcode = (opAt A n).opcode := by
  have hswap : ∀ next, (swapOperands (opAt A n) next).opcode = (opAt A n).opcode := by
    intro next
    rw [swapOperands]
    split <;> rfl
  rw [rewriteAssign]
  dsimp only
  split
  · split
    · exact .inl rfl
    · exact .inr (hswap _)
  · exact .inr rfl

theorem assignOpcode_ne_jmp {opcode assigned : Opcode} (h : assignOpcode opcode = some assigned) :
    assigned ≠ .jmp ∧ opcode ≠ .jmp ∧ ¬(opcode = .jmpSet ∨ opcode = .jmpSetVar) := by
  refine ⟨?_, ?_, ?_⟩
  · rintro rfl
    cases opcode <;> simp [assignOpcode] at h
  · rintro rfl
    simp [assignOpcode] at h
  · rintro (rfl | rfl) <;> simp [assignOpcode] at h

theorem rewritePostInc_opcode {pre : Opcode} (hpre : pre ≠ .jmp)
    (hop : (opAt A n).opcode ≠ .jmp) : (rewritePostInc A n pre).op.opcode ≠ .jmp := by
  rw [rewritePostInc]
  split
  · exact hpre
  · exact hop

end Shortening

/-! The turns. -/

section Pass

/-- Turns of the pass lead from the opline `n` of `A` to the opline `m` of `B`. -/
inductive Reached : Nat → List ZendOp → Nat → List ZendOp → Prop where
  | refl (n : Nat) (A : List ZendOp) : Reached n A n A
  | turn {n n' m fuel : Nat} {A A' B : List ZendOp} (hn : n < A.length)
      (hturn : pass3Turn n fuel false A = some (A', n')) (rest : Reached n' A' m B) :
      Reached n A m B

/-- If a JMP_SET stands at `n`, following the JMPs from its target on one leaves them. -/
def JmpSetEnds (A : List ZendOp) (n : Nat) : Prop :=
  (opAt A n).opcode = .jmpSet ∨ (opAt A n).opcode = .jmpSetVar → JumpsEnd A (opAt A n).op2.num

/-- The loop of a turn at a jump. -/
inductive JumpRun (n : Nat) (A : List ZendOp) : (Nat → Option (List ZendOp)) → Prop where
  | jmp (hop : (opAt A n).opcode = .jmp) : JumpRun n A (jmpCase n · A)
  | jmpSet (hop : (opAt A n).opcode = .jmpSet ∨ (opAt A n).opcode = .jmpSetVar) :
      JumpRun n A (threadJmpSet n · A)
  | jmpz (hop : (opAt A n).opcode = .jmpz ∨ (opAt A n).opcode = .jmpnz) :
      JumpRun n A (jmpzCase n · A)
  | jmpzEx (hop : (opAt A n).opcode = .jmpzEx ∨ (opAt A n).opcode = .jmpnzEx) :
      JumpRun n A (jmpzExCase n · A)
  | jmpznz (hop : (opAt A n).opcode = .jmpznz) : JumpRun n A (jmpznzCase n · A)

variable {n : Nat} {A : List ZendOp} {run : Nat → Option (List ZendOp)}

theorem pass3Turn_cases (n : Nat) (A : List ZendOp) :
    (∃ r, (∀ fuel, pass3Turn n fuel false A = some r) ∧ n < r.2 ∧ Shortened n A r.1 ∧
      ¬((opAt A n).opcode = .jmpSet ∨ (opAt A n).opcode = .jmpSetVar)) ∨
    ∃ run, JumpRun n A run ∧ ∀ fuel, pass3Turn n fuel false A = (run fuel).map (·, n + 1) := by
  simp only [pass3Turn]
  cases hassign : assignOpcode (opAt A n).opcode with
  | some assigned =>
    obtain ⟨hassigned, hold, hset⟩ := assignOpcode_ne_jmp hassign
    refine .inl ⟨_, fun _ => rfl, ?_, Rewriting.apply_shortened ?_, hset⟩
    · dsimp only
      split <;> omega
    · rcases @rewriteAssign_opcode n A assigned with hop | hop
      · rwa [hop]
      · rwa [hop]
  | none =>
    have hpost : ∀ {pre}, pre ≠ .jmp → (opAt A n).opcode ≠ .jmp →
        Shortened n A ((rewritePostInc A n pre).apply A n) := fun hpre hop =>
      Rewriting.apply_shortened (rewritePostInc_opcode hpre hop)
    cases hop : (opAt A n).opcode with
    | postInc | postDec =>
      exact .inl ⟨_, fun _ => rfl, Nat.lt_succ_self n, hpost (by simp) (by simp [hop]), by simp⟩
    | jmp => exact .inr ⟨_, .jmp hop, fun _ => rfl⟩
    | jmpSet => exact .inr ⟨_, .jmpSet (.inl hop), fun _ => rfl⟩
    | jmpSetVar => exact .inr ⟨_, .jmpSet (.inr hop), fun _ => rfl⟩
    | jmpz => exact .inr ⟨_, .jmpz (.inl hop), fun _ => rfl⟩
    | jmpnz => exact .inr ⟨_, .jmpz (.inr hop), fun _ => rfl⟩
    | jmpzEx => exact .inr ⟨_, .jmpzEx (.inl hop), fun _ => rfl⟩
    | jmpnzEx => exact .inr ⟨_, .jmpzEx (.inr hop), fun _ => rfl⟩
    | jmpznz => exact .inr ⟨_, .jmpznz hop, fun _ => rfl⟩
    | _ => exact .inl ⟨_, fun _ => rfl, Nat.lt_succ_self n, .refl n A, by simp⟩

theorem ne_jmp_of {a b : Opcode} (ha : a ≠ .jmp) (hb : b ≠ .jmp)
    (h : (opAt A n).opcode = a ∨ (opAt A n).opcode = b) : (opAt A n).opcode ≠ .jmp := by
  rcases h with h | h <;> rwa [h]

theorem map_ends {α β : Type} {f : α → β} {run : Nat → Option α} :
    (∃ fuel r, (run fuel).map f = some r) ↔ ∃ fuel r, run fuel = some r := by
  constructor
  · rintro ⟨fuel, r, h⟩
    obtain ⟨a, ha, -⟩ := map_eq_some_iff.mp h
    exact ⟨fuel, a, ha⟩
  · rintro ⟨fuel, a, h⟩
    exact ⟨fuel, f a, by rw [h]; rfl⟩

theorem JumpRun.ends (h : JumpRun n A run) (hn : n < A.length)
    (hset : ¬((opAt A n).opcode = .jmpSet ∨ (opAt A n).opcode = .jmpSetVar))
    (hfuel : A.length < fuel) : ∃ A', run fuel = some A' := by
  cases h with
  | jmp hop =>
    obtain ⟨r, hrun⟩ := threadJmps_ends field_jmp hn (.start hop) (by simpa using hfuel)
    simp only [jmpCase]
    split
    · exact ⟨_, rfl⟩
    · exact ⟨r.1, by rw [hrun]; rfl⟩
  | jmpSet hop => exact absurd hop hset
  | jmpz hop =>
    obtain ⟨A', hrun⟩ := threadJmpz_ends hn (.start (ne_jmp_of (by simp) (by simp) hop))
      (by simpa using hfuel)
    simp only [jmpzCase]
    split
    · exact ⟨_, rfl⟩
    · exact ⟨A', hrun⟩
  | jmpzEx hop =>
    obtain ⟨A', hrun⟩ := threadJmpzEx_ends hn (t := (opAt A n).result) (.start trivial)
      (by simpa using hfuel)
    simp only [jmpzExCase]
    split
    · split <;> exact ⟨_, rfl⟩
    · exact ⟨A', hrun⟩
  | jmpznz hop =>
    obtain ⟨r, hrun⟩ := threadJmps_ends field_jmpznz_op2 hn (.start hop) (by simpa using hfuel)
    obtain ⟨r', hrun'⟩ := threadJmps_ends field_jmpznz_ext hn
      (threadJmps_looping field_jmpznz_op2 hn (.start hop) hrun)
      (lt_of_lt_of_le hfuel (Nat.le_add_right fuel _))
    refine ⟨r'.1, ?_⟩
    simp only [jmpznzCase, hrun, bind_some, hrun']
    rfl

/-- The loop of a jump ends exactly if it is not for a JMP_SET in front of a circle of JMPs. -/
theorem JumpRun.ends_iff (h : JumpRun n A run) (hn : n < A.length) :
    (∃ fuel A', run fuel = some A') ↔ JmpSetEnds A n := by
  by_cases hset : (opAt A n).opcode = .jmpSet ∨ (opAt A n).opcode = .jmpSetVar
  · rw [JmpSetEnds, imp_iff_right hset]
    cases h with
    | jmpSet => exact threadJmpSet_ends_iff hn (ne_jmp_of (by simp) (by simp) hset)
    | jmp hop => simp [hop] at hset
    | jmpz hop | jmpzEx hop => rcases hop with hop | hop <;> simp [hop] at hset
    | jmpznz hop => simp [hop] at hset
  · exact iff_of_true ⟨A.length + 1, h.ends hn hset (Nat.lt_succ_self _)⟩ fun hop => absurd hop hset

/-- The loops of a turn end exactly if it is not at a JMP_SET in front of a circle of JMPs. -/
theorem pass3Turn_ends_iff (hn : n < A.length) :
    (∃ fuel r, pass3Turn n fuel false A = some r) ↔ JmpSetEnds A n := by
  rcases pass3Turn_cases n A with ⟨r, hrun, -, -, hset⟩ | ⟨run, hjump, hrun⟩
  · exact iff_of_true ⟨0, r, hrun 0⟩ fun hop => absurd hop hset
  · simp only [hrun]
    exact map_ends.trans (hjump.ends_iff hn)

theorem jmpsHitlist_length_le {r : Option (List ZendOp × List Nat)} {last : Nat}
    (h : ∀ A' hitlist', r = some (A', hitlist') → hitlist'.length ≤ last) :
    (jmpsHitlist r).length ≤ last := by
  cases r with
  | none => exact Nat.zero_le last
  | some r => exact h r.1 r.2 rfl

theorem turnHitlist_length_le (hn : n < A.length) (fuel : Nat) :
    (turnHitlist n fuel A).length ≤ A.length := by
  have hunless : ∀ {p : Prop} [Decidable p] {hitlist : List Nat},
      hitlist.length ≤ A.length → (if p then [] else hitlist).length ≤ A.length := by
    intro p _ hitlist hle
    split
    case isTrue => exact Nat.zero_le _
    case isFalse => exact hle
  rw [turnHitlist]
  cases hop : (opAt A n).opcode with
  | jmp =>
    refine hunless (jmpsHitlist_length_le fun A' hitlist' hrun => ?_)
    exact (threadJmps_looping field_jmp hn (.start hop) hrun).hits.length_le
  | jmpz | jmpnz =>
    exact hunless (jmpzHitlist_hits hn fuel (.start (by simp [hop]))).length_le
  | jmpzEx | jmpnzEx =>
    exact hunless (jmpzExHitlist_hits hn fuel _ (.start trivial)).length_le
  | jmpznz =>
    refine jmpsHitlist_length_le fun A' hitlist' hrun => ?_
    obtain ⟨r, hfirst, hsecond⟩ := bind_eq_some_iff.mp hrun
    exact (threadJmps_looping field_jmpznz_ext hn
      (threadJmps_looping field_jmpznz_op2 hn (.start hop) hfirst) hsecond).hits.length_le
  | _ => exact Nat.zero_le _

/-! More fuel changes nothing. -/

theorem map_succ {α β : Type} {f : α → β} {run run' : Option α}
    (hsucc : ∀ r, run = some r → run' = some r) {s : β} (h : run.map f = some s) :
    run'.map f = some s := by
  obtain ⟨r, hrun, hr⟩ := map_eq_some_iff.mp h
  exact map_eq_some_iff.mpr ⟨r, hsucc r hrun, hr⟩

theorem threadJmps_succ {get : ZendOp → Nat} {set : ZendOp → Nat → ZendOp}
    (h : threadJmps n get set fuel A hitlist = some r) :
    threadJmps n get set (fuel + 1) A hitlist = some r :=
  (threadJmps_isLoop n get set).succ (s := (A, hitlist)) h

theorem JumpRun.succ (h : JumpRun n A run) {A' : List ZendOp}
    (hrun : run fuel = some A') : run (fuel + 1) = some A' := by
  cases h with
  | jmp =>
    simp only [jmpCase] at hrun ⊢
    split at hrun
    case isTrue hnext => rwa [if_pos hnext]
    case isFalse hnext =>
      rw [if_neg hnext]
      exact map_succ (fun _ => threadJmps_succ) hrun
  | jmpSet => exact (threadJmpSet_isLoop n).succ hrun
  | jmpz =>
    simp only [jmpzCase] at hrun ⊢
    split at hrun
    case isTrue hnext => rwa [if_pos hnext]
    case isFalse hnext =>
      rw [if_neg hnext]
      exact (threadJmpz_isLoop n).succ (s := (A, [])) hrun
  | jmpzEx =>
    simp only [jmpzExCase] at hrun ⊢
    split at hrun
    case isTrue hnext => rwa [if_pos hnext]
    case isFalse hnext =>
      rw [if_neg hnext]
      exact (threadJmpzEx_isLoop n).succ (s := (A, _, [])) hrun
  | jmpznz =>
    obtain ⟨r, hfirst, hsecond⟩ := bind_eq_some_iff.mp hrun
    refine bind_eq_some_iff.mpr ⟨r, threadJmps_succ hfirst, ?_⟩
    exact map_succ (fun _ => threadJmps_succ) hsecond

theorem pass3Turn_succ {r : List ZendOp × Nat}
    (h : pass3Turn n fuel false A = some r) : pass3Turn n (fuel + 1) false A = some r := by
  rcases pass3Turn_cases n A with ⟨r', hrun, -⟩ | ⟨run, hjump, hrun⟩
  · rwa [hrun] at h ⊢
  · rw [hrun] at h ⊢
    exact map_succ (fun _ => hjump.succ) h

theorem pass3Turn_mono (hfuel : fuel ≤ fuel') {r : List ZendOp × Nat}
    (h : pass3Turn n fuel false A = some r) : pass3Turn n fuel' false A = some r := by
  induction fuel', hfuel using Nat.le_induction with
  | base => exact h
  | succ fuel' _ ih => exact pass3Turn_succ ih

theorem pass3Turn_unique {r r' : List ZendOp × Nat}
    (h : pass3Turn n fuel false A = some r) (h' : pass3Turn n fuel' false A = some r') :
    r = r' := by
  rcases Nat.le_total fuel fuel' with hfuel | hfuel
  · exact Option.some.inj ((pass3Turn_mono hfuel h).symm.trans h')
  · exact Option.some.inj (h.symm.trans (pass3Turn_mono hfuel h'))

theorem pass3Loop_mono (hfuel : fuel ≤ fuel') {turns : Nat}
    (h : pass3Loop fuel false turns n A = some B) : pass3Loop fuel' false turns n A = some B := by
  induction turns generalizing n A with
  | zero => exact h
  | succ turns ih =>
    rw [pass3Loop] at h ⊢
    split at h
    · rename_i hn
      rw [if_pos hn]
      obtain ⟨r, hturn, hrest⟩ := bind_eq_some_iff.mp h
      exact bind_eq_some_iff.mpr ⟨r, pass3Turn_mono hfuel hturn, ih hrest⟩
    · rename_i hn
      rw [if_neg hn]
      exact h

/-! What a turn does to the JMPs. -/

theorem JumpRun.shortened (h : JumpRun n A run) (hn : n < A.length)
    {A' : List ZendOp} (hrun : run fuel = some A') : Shortened n A A' := by
  cases h with
  | jmp hop =>
    simp only [jmpCase] at hrun
    split at hrun
    · rw [← Option.some.inj hrun]
      exact .nop n _
    · obtain ⟨r, hloop, rfl⟩ := map_eq_some_iff.mp hrun
      exact threadJmps_shortened hn hop hloop
  | jmpSet hop => exact threadJmpSet_shortened hn (ne_jmp_of (by simp) (by simp) hop) hrun
  | jmpz hop =>
    simp only [jmpzCase] at hrun
    split at hrun
    · rw [← Option.some.inj hrun]
      exact .nop n _
    · exact threadJmpz_shortened hn (ne_jmp_of (by simp) (by simp) hop) hrun
  | jmpzEx hop =>
    simp only [jmpzExCase] at hrun
    split at hrun
    · split at hrun
      · rw [← Option.some.inj hrun]
        exact .nop n _
      · rw [← Option.some.inj hrun]
        exact .replace (by simp)
    · exact threadJmpzEx_shortened hn (ne_jmp_of (by simp) (by simp) hop) hrun
  | jmpznz hop =>
    have hne : (opAt A n).opcode ≠ .jmp := by simp [hop]
    obtain ⟨r, hfirst, hsecond⟩ := bind_eq_some_iff.mp hrun
    obtain ⟨r', hloop, rfl⟩ := map_eq_some_iff.mp hsecond
    obtain ⟨hshort, hkept⟩ := threadJmps_replaces field_jmpznz_op2 hn hne hfirst
    exact hshort.trans (threadJmps_replaces field_jmpznz_ext (hshort.length ▸ hn)
      (hkept ▸ hne) hloop).1

/-- A turn goes on behind `n`, and JMPs are only shortened. -/
theorem pass3Turn_shortened {r : List ZendOp × Nat} (hn : n < A.length)
    (h : pass3Turn n fuel false A = some r) : n < r.2 ∧ Shortened n A r.1 := by
  rcases pass3Turn_cases n A with ⟨r', hrun, hlt, hshort, -⟩ | ⟨run, hjump, hrun⟩
  · rw [hrun] at h
    exact Option.some.inj h ▸ ⟨hlt, hshort⟩
  · rw [hrun] at h
    obtain ⟨A', hA', rfl⟩ := map_eq_some_iff.mp h
    exact ⟨Nat.lt_succ_self n, hjump.shortened hn hA'⟩

theorem jmpSetEnds_of_end (hn : A.length ≤ n)
    (h : Reached n A m B) (hm : m < B.length) : JmpSetEnds B m := by
  cases h with
  | refl => exact absurd hm (Nat.not_lt_of_le hn)
  | turn hlt => exact absurd hlt (Nat.not_lt_of_le hn)

/-- The loop over the oplines ends exactly if no turn is at a JMP_SET in front of a circle of
JMPs. -/
theorem pass3Loop_ends_iff {turns : Nat} (hturns : A.length ≤ n + turns) :
    (∃ fuel B, pass3Loop fuel false turns n A = some B) ↔
      ∀ m B, Reached n A m B → m < B.length → JmpSetEnds B m := by
  induction turns generalizing n A with
  | zero => exact iff_of_true ⟨0, A, rfl⟩ fun m B => jmpSetEnds_of_end hturns
  | succ turns ih =>
    by_cases hn : n < A.length
    · simp only [pass3Loop, if_pos hn]
      have hrest : ∀ fuel r, pass3Turn n fuel false A = some r →
          ((∃ fuel B, pass3Loop fuel false turns r.2 r.1 = some B) ↔
            ∀ m B, Reached r.2 r.1 m B → m < B.length → JmpSetEnds B m) := by
        intro fuel r hturn
        obtain ⟨hlt, hshort⟩ := pass3Turn_shortened hn hturn
        have hlength := hshort.length
        exact ih (by omega)
      constructor
      · rintro ⟨fuel, C, hrun⟩ m B hreached hm
        obtain ⟨r, hturn, hloop⟩ := bind_eq_some_iff.mp hrun
        cases hreached with
        | refl => exact (pass3Turn_ends_iff hn).mp ⟨fuel, r, hturn⟩
        | turn hlt hturn' rest =>
          obtain rfl := pass3Turn_unique hturn hturn'
          exact (hrest fuel _ hturn).mp ⟨fuel, C, hloop⟩ m B rest hm
      · intro h
        obtain ⟨fuel, r, hturn⟩ := (pass3Turn_ends_iff hn).mpr (h n A (.refl n A) hn)
        obtain ⟨fuel', C, hloop⟩ := (hrest fuel r hturn).mpr fun m B hreached =>
          h m B (.turn hn hturn hreached)
        refine ⟨max fuel fuel', C, bind_eq_some_iff.mpr ⟨r, ?_, ?_⟩⟩
        · exact pass3Turn_mono (le_max_left fuel fuel') hturn
        · exact pass3Loop_mono (le_max_right fuel fuel') hloop
    · simp only [pass3Loop, if_neg hn]
      exact iff_of_true ⟨0, A, rfl⟩ fun m B => jmpSetEnds_of_end (Nat.le_of_not_lt hn)

theorem Reached.length (h : Reached n A m B) : B.length = A.length := by
  induction h with
  | refl => rfl
  | turn hn hturn rest ih => exact ih.trans (pass3Turn_shortened hn hturn).2.length

/-- A JMP_SET in front of JMPs that end is not caught later. -/
theorem Reached.jmpSetEnds (h : Reached n A m B)
    (hends : ∀ k, n ≤ k → JmpSetEnds A k) : JmpSetEnds B m := by
  induction h with
  | refl => exact hends _ le_rfl
  | turn hn hturn rest ih =>
    obtain ⟨hlt, hshort⟩ := pass3Turn_shortened hn hturn
    refine ih fun k hk hop => ?_
    have hkept := hshort.kept k (lt_of_lt_of_le hlt hk) hop
    rw [hkept] at hop ⊢
    exact hshort.ends _ (hends k (le_trans (le_of_lt hlt) hk) hop)

theorem pass3_ends_iff_jmpSetEnds (a : OpArray) (h : a.hasFinallyBlock = false) :
    (∃ fuel b, pass3 fuel a = some b) ↔
      ∀ n A, Reached 0 a.opcodes n A → n < A.length → JmpSetEnds A n := by
  simp only [pass3, h]
  exact map_ends.trans (pass3Loop_ends_iff (Nat.le_add_left _ _))

/-- The loops of pass 3 end exactly if, at every JMP_SET and JMP_SET_VAR, following the JMPs
from its target on one leaves them, in the oplines as they are when the pass comes to it.  That
is so if one leaves them in the op_array that the pass is given.  No hit list has more entries
than there are oplines. -/
theorem pass3_ends_iff (a : OpArray) (h : a.hasFinallyBlock = false) :
    ((∃ fuel b, pass3 fuel a = some b) ↔
      ∀ n A, Reached 0 a.opcodes n A → n < A.length → JmpSetEnds A n) ∧
    ((∀ n, JmpSetEnds a.opcodes n) → ∃ fuel b, pass3 fuel a = some b) ∧
    ∀ n A, Reached 0 a.opcodes n A → n < A.length → ∀ fuel,
      (turnHitlist n fuel A).length ≤ a.opcodes.length := by
  have hiff := pass3_ends_iff_jmpSetEnds a h
  refine ⟨hiff, fun hends => ?_, fun n A hreached hn fuel => ?_⟩
  · exact hiff.mpr fun n A hreached _ => hreached.jmpSetEnds fun k _ => hends k
  · rw [← hreached.length]
    exact turnHitlist_length_le hn fuel

/-- `L0: JMP_SET(X, target), L1: JMP(L1), L2: RETURN` -/
def jmpSetCircle (target : Nat) : OpArray where
  opcodes := [⟨.jmpSet, ⟨.cv, 0, false⟩, ⟨.unused, target, false⟩, ⟨.tmpVar, 1, false⟩, 0⟩,
    ⟨.jmp, ⟨.unused, 1, false⟩, .none, .none, 0⟩, ⟨.returnOp, ⟨.const, 0, false⟩, .none, .none, 0⟩]

/-- Beside the circle the JMP_SET is not caught. -/
theorem pass3_ends_beside_circle : ∃ fuel b, pass3 fuel (jmpSetCircle 2) = some b := by
  refine (pass3_ends_iff (jmpSetCircle 2) rfl).2.1 fun n hop => ?_
  obtain _ | _ | _ | n := n
  · exact .stop 2 (by decide)
  · exact absurd hop (by decide)
  · exact absurd hop (by decide)
  · exact absurd hop (by simp [jmpSetCircle, opAt, ZendOp.outside])

theorem not_jumpsEnd_self (h : n < A.length ∧ (opAt A n).opcode = .jmp)
    (hself : (opAt A n).op1.num = n) : ¬JumpsEnd A n := by
  intro hends
  generalize hm : n = m at hends
  induction hends with
  | stop m hstop => exact hstop (hm ▸ h)
  | next m _ _ ih => exact ih (by rw [← hm, hself])

/-- In front of the circle the loop for JMP_SET does not end. -/
theorem pass3_jmpSetCircle :
    (jmpSetCircle 1).hasFinallyBlock = false ∧ ¬∃ fuel b, pass3 fuel (jmpSetCircle 1) = some b := by
  refine ⟨rfl, fun hends => ?_⟩
  have hset := (pass3_ends_iff_jmpSetEnds (jmpSetCircle 1) rfl).mp hends 0 _ (.refl 0 _) (by decide)
  exact not_jumpsEnd_self (by decide) rfl (hset (.inl rfl))

end Pass

end JumpTermination

end PhpEngine
