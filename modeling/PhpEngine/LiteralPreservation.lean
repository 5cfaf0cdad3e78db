/-
Which literals the pass preserves.  The compiler's groups stay apart, so the
merging loop runs on them as it should; a constant operand loses its literal
only where two members of `$this` or of a class are written the same way in
the key.
-/
import PhpEngine.LiteralMerging

namespace PhpEngine

open List Option

variable {α : Type}

namespace LiteralUse

/-- A member of `$this`. -/
def ofThis : LiteralUse → Bool
  | .method this => this
  | .property this => this
  | _ => false

/-- A member of a class that is a constant operand too. -/
def ofConstClass : LiteralUse → Bool
  | .classConst const => const
  | .staticMethod const => const
  | .staticProperty const => const
  | _ => false

/-- The use that flags stand for. -/
def ofFlags (flags : LiteralFlags) : LiteralUse :=
  match flags.kind with
  | .value => .value
  | .func =>
    if flags.related.val = 1 then .func
    else if flags.related.val = 2 then .funcByName
    else .nsFuncByName
  | .cls => .className
  | .const => .constName (flags.related.val = 5)
  | .classConst => .classConst flags.exClass
  | .staticMethod => .staticMethod flags.exClass
  | .staticProperty => .staticProperty flags.exClass
  | .method => .method flags.exObj
  | .property => .property flags.exObj

variable (use : LiteralUse) (isString : Bool) (thisVar className : Int)

theorem info_exObj : (use.info isString thisVar className).flags.exObj =
      (isString && use.ofThis) := by
  cases use with
  | method flag | property flag => cases flag <;> cases isString <;> rfl
  | constName flag | classConst flag | staticMethod flag
  | staticProperty flag => cases flag <;> cases isString <;> rfl
  | _ => cases isString <;> rfl

theorem info_exClass : (use.info isString thisVar className).flags.exClass = use.ofConstClass := by
  cases use with
  | method flag | property flag => cases flag <;> cases isString <;> rfl
  | constName flag | classConst flag | staticMethod flag
  | staticProperty flag => cases flag <;> rfl
  | _ => rfl

theorem info_num_of_exObj (h : (isString && use.ofThis) = true) :
    (use.info isString thisVar className).num = thisVar := by
  cases use with
  | method flag | property flag =>
    cases flag <;> cases isString <;> first | rfl | cases h
  | _ => cases isString <;> cases h

theorem info_num_of_exClass (h : use.ofConstClass = true) :
    (use.info isString thisVar className).num = className := by
  cases use with
  | classConst flag | staticMethod flag | staticProperty flag =>
    cases flag <;> first | rfl | cases h
  | _ => cases h

theorem info_mayMerge (h : (isString && use.ofThis) = true ∨ use.ofConstClass = true) :
    (use.info isString thisVar className).flags.mayMerge = true := by
  cases use with
  | method flag | property flag =>
    cases flag <;> cases isString <;> first | rfl | simp [ofThis, ofConstClass] at h
  | classConst flag | staticMethod flag | staticProperty flag =>
    cases flag <;> first | rfl | simp [ofThis, ofConstClass] at h
  | _ => rfl

theorem info_flags (thisVar' className' : Int) : (use.info isString thisVar className).flags =
      (use.info isString thisVar' className').flags := by
  cases use with
  | method flag | property flag => cases flag <;> cases isString <;> rfl
  | constName flag | classConst flag | staticMethod flag
  | staticProperty flag => cases flag <;> rfl
  | _ => rfl

theorem ofFlags_info (h : (use.info isString thisVar className).flags.mayMerge = true) :
    ofFlags (use.info isString thisVar className).flags = use := by
  cases use with
  | method flag | property flag =>
    cases flag <;> cases isString <;> first | rfl | cases h
  | constName flag | classConst flag | staticMethod flag
  | staticProperty flag => cases flag <;> rfl
  | _ => rfl

end LiteralUse

/-- A member of a constant class has the name of the class on its other
side. -/
theorem LiteralSwitch.use_other {label : LiteralSwitch} {opline : ZendOp}
    {side : OperandSide} (h : (label.use opline side).ofConstClass = true) :
    (opline.operand side.other).type = .const ∧ label.use opline side.other = .className := by
  cases side with
  | op1 =>
    cases label <;> simp only [LiteralSwitch.use] at h
    case fetchVar =>
      split at h
      · cases h
      · exact ⟨of_decide_eq_true h, rfl⟩
    all_goals cases h
  | op2 =>
    cases label <;> simp only [LiteralSwitch.use] at h
    case initStaticMethodCall =>
      exact ⟨of_decide_eq_true h, rfl⟩
    case fetchConstant =>
      split at h
      · cases h
      · exact ⟨of_decide_eq_true h, rfl⟩
    case compoundAssign =>
      split at h <;> cases h
    all_goals cases h

namespace ConstOperand

variable (code : CompiledCode α) (x : ConstOperand)

/-- The text of the operand's literal. -/
def text : KeyBytes :=
  (literalAt code.literals x.num).constant.text

def isString : Bool :=
  (literalAt code.literals x.num).constant.isString

/-- The text of the literal on the other side. -/
def otherText : KeyBytes :=
  (literalAt code.literals x.otherNum).constant.text

end ConstOperand

/-- The table that the merging loop starts from. -/
def CompiledCode.markedTable (code : CompiledCode α) : MarkedTable α :=
  ⟨code.literals, markLiterals code⟩

theorem ConstOperand.markedUse_eq_use (x : ConstOperand)
    (h : 1 < x.use.related) : x.markedUse = x.use := by
  rcases x.markedUse_cases with hsame | ⟨-, hvalue⟩
  · exact hsame
  · rw [← x.related_markedUse, hvalue] at h
    exact absurd h (by decide)

theorem ConstOperand.use_of_markedUse {x : ConstOperand} {use : LiteralUse}
    (h : x.markedUse = use) (hvalue : use ≠ .value) : x.use = use := by
  rcases x.markedUse_cases with hsame | ⟨-, hmarked⟩
  · rw [← hsame, h]
  · exact absurd (h.symm.trans hmarked) hvalue

namespace CompiledCode.WellFormed

variable {code : CompiledCode α} {x : ConstOperand}

theorem exists_class (hx : x ∈ constOperands code.opcodes)
    (hmember : x.markedUse.ofConstClass = true) :
    ∃ y ∈ constOperands code.opcodes, y.num = x.otherNum ∧ y.markedUse = .className := by
  obtain ⟨hline, -⟩ := mem_constOperands.mp hx
  obtain ⟨htype, huse⟩ := LiteralSwitch.use_other hmember
  exact ⟨⟨x.line, x.opline, x.side.other⟩, mem_constOperands.mpr ⟨hline, htype⟩, rfl, huse⟩

theorem size_num (hwf : code.WellFormed) (hx : x ∈ constOperands code.opcodes) :
    code.markedTable.size x.num = x.use.related := by
  have hinfo : infoAt code.markedTable.info x.num = some (x.mark code) :=
    hwf.infoAt_num hx
  have hrelated : (x.mark code).flags.related.val = x.use.related := by
    rw [ConstOperand.mark, LiteralUse.info_related, x.related_markedUse]
  have hpos := x.use.related_pos
  unfold MarkedTable.size
  rw [hinfo]
  dsimp only
  split
  · omega
  · case isFalse htext =>
      -- only a name has more than one literal, and names are strings
      by_cases hname : x.use.isName = true
      · have hstring := hwf.names x hx hname
        cases hconstant : (literalAt code.literals x.num).constant <;>
          rw [hconstant] at hstring <;> cases hstring
        exact absurd (by simp [MarkedTable.constant, markedTable, hconstant,
          LiteralZval.isText]) htext
      · cases huse : x.use <;> rw [huse] at hname <;> first | rfl | exact absurd rfl hname

theorem grouped (hwf : code.WellFormed) : code.markedTable.Grouped where
  infoLength := by
    exact (setMarks_length _ _).trans (length_replicate ..)
  inside := by
    intro n hmarked
    obtain ⟨info, hinfo⟩ := ne_none_iff_exists'.mp hmarked
    obtain ⟨x, hx, rfl, -⟩ := hwf.exists_operand hinfo
    rw [hwf.size_num hx]
    exact hwf.inTable x hx
  apart := by
    intro n hmarked m hlt hend
    obtain ⟨info, hinfo⟩ := ne_none_iff_exists'.mp hmarked
    obtain ⟨x, hx, rfl, -⟩ := hwf.exists_operand hinfo
    rw [hwf.size_num hx] at hend
    by_contra hmarked'
    obtain ⟨info', hinfo'⟩ := ne_none_iff_exists'.mp hmarked'
    obtain ⟨y, hy, rfl, -⟩ := hwf.exists_operand hinfo'
    have hapart := hwf.apart x hx y hy hlt
    omega
  classes := by
    intro n info hinfo hclass
    obtain ⟨x, hx, rfl, rfl⟩ := hwf.exists_operand hinfo
    rw [ConstOperand.mark, LiteralUse.info_exClass] at hclass
    obtain ⟨y, hy, hnum, huse⟩ := exists_class hx hclass
    have hstring := hwf.names y hy (by
      rw [ConstOperand.use_of_markedUse huse (by simp)]
      rfl)
    have hnum' : (x.mark code).num.toNat = y.num := by
      rw [ConstOperand.mark, LiteralUse.info_num_of_exClass _ _ _ _ hclass, hnum]
      rfl
    rw [hnum']
    cases hconstant : (literalAt code.literals y.num).constant <;>
      rw [hconstant] at hstring <;> cases hstring
    refine ⟨_, y.mark code, hconstant, hwf.infoAt_num hy, ?_, ?_⟩
    · rw [ConstOperand.mark, huse]
      rfl
    · rw [ConstOperand.mark, huse]
      rfl

theorem merged (hwf : code.WellFormed) : ∃ kept last, code.literals.length ≤ last ∧
      Merged code.markedTable (mergedState code) last kept := by
  have hstart : Merged code.markedTable
      { literals := code.literals
        info := markLiterals code
        map := List.replicate code.literals.length 0 } 0 [] :=
    { literalsLength := rfl
      infoLength := hwf.grouped.infoLength
      mapLength := length_replicate ..
      count := rfl
      cacheSlots := rfl
      behind := le_refl 0
      ahead := fun n _ => ⟨rfl, rfl⟩
      leaders := by simp
      stored := fun before c hplaced => absurd hplaced.mem (by simp)
      own := fun before c hplaced => absurd hplaced.mem (by simp)
      mapped := fun n hn => absurd hn (Nat.not_lt_zero n)
      found := by
        intro key pos hvalid hsome
        cases key with
        | bool b => cases b <;> cases hsome
        | _ => cases hsome
      known := fun n hn => absurd hn (Nat.not_lt_zero n) }
  obtain ⟨kept, last, hlast, hmerged⟩ := Merged.mergeLiterals hwf.grouped
    code.literals.length hstart (Nat.le_add_left _ _)
  exact ⟨kept, last, hlast, hmerged⟩

end CompiledCode.WellFormed

/-- The number of an operand in other code with the same oplines. -/
def ConstOperand.numIn (code : CompiledCode α) (x : ConstOperand) : Nat :=
  ((opAt code.opcodes x.line).operand x.side).num

/-- Every constant operand of the new code designates the literals that it
designated in the old code, as many as its handler uses. -/
def LiteralsKept (code new : CompiledCode α) : Prop :=
  ∀ x ∈ constOperands code.opcodes, ∀ t < x.use.related, constantAt new.literals (x.numIn new + t) =
      constantAt code.literals (x.num + t)

/-- The keys tell the members of `$this` and of constant classes apart: no two
members of the same kind have names that differ only from a NUL byte on, or
the same text with their classes before them. -/
structure CompiledCode.KeysTell (code : CompiledCode α) : Prop where
  ofThis : ∀ x ∈ constOperands code.opcodes,
    ∀ y ∈ constOperands code.opcodes, x.markedUse = y.markedUse →
      x.markedUse.ofThis = true → x.isString code = true →
      y.isString code = true →
      cString (x.text code) = cString (y.text code) → x.text code = y.text code
  ofClass : ∀ x ∈ constOperands code.opcodes,
    ∀ y ∈ constOperands code.opcodes, x.markedUse = y.markedUse → x.markedUse.ofConstClass = true →
      classKey (x.otherText code) (x.text code) = classKey (y.otherText code) (y.text code) →
      x.text code = y.text code

theorem optimizerCompactLiterals_eq {code : CompiledCode α} (h : code.literals ≠ []) :
    optimizerCompactLiterals code = { code with
        opcodes := code.opcodes.map (·.renumber (mergedState code).map)
        literals := (mergedState code).literals.take (mergedState code).j
        lastCacheSlot := (mergedState code).cacheSlots } := by
  unfold optimizerCompactLiterals
  rw [if_neg (by simpa using h)]

theorem numIn_eq {code : CompiledCode α} (hwf : code.WellFormed)
    {x : ConstOperand} (hx : x ∈ constOperands code.opcodes) :
    x.numIn (optimizerCompactLiterals code) = (mergedState code).map.getD x.num 0 := by
  obtain ⟨hline, htype⟩ := mem_constOperands.mp hx
  have hne : code.literals ≠ [] :=
    ne_nil_of_length_pos (lt_of_le_of_lt (Nat.zero_le _) (hwf.num_lt hx))
  have hopline : opAt (optimizerCompactLiterals code).opcodes x.line =
      x.opline.renumber (mergedState code).map := by
    rw [optimizerCompactLiterals_eq hne]
    exact opAt_of_getElem? (by rw [getElem?_map, hline]; rfl)
  rw [ConstOperand.numIn, hopline]
  unfold ConstOperand.num
  cases hside : x.side <;> rw [hside] at htype <;>
    simp only [ZendOp.operand, ZendOp.renumber, Operand.renumber] at htype ⊢ <;>
    rw [if_pos htype]

theorem LiteralZval.eq_of_sameType {c c' : LiteralZval α}
    (htype : c.sameType c' = true) (htext : c.text = c'.text) : c = c' := by
  cases c <;> cases c' <;> cases htype <;> exact congrArg _ htext

namespace CompiledCode.WellFormed

variable {code : CompiledCode α} {x y : ConstOperand} {kept : List Nat} {last : Nat}

theorem literals_ne_nil (hwf : code.WellFormed)
    (hx : x ∈ constOperands code.opcodes) : code.literals ≠ [] :=
  ne_nil_of_length_pos (Nat.lt_of_le_of_lt (Nat.zero_le _) (hwf.num_lt hx))

section

variable (hwf : code.WellFormed) (hmerged : Merged code.markedTable (mergedState code) last kept)
include hwf hmerged

/-- An operand points at the group of a literal that its own could not be told
from. -/
theorem points (hlast : code.literals.length ≤ last) (hx : x ∈ constOperands code.opcodes) :
    ∃ before y, y ∈ constOperands code.opcodes ∧ PlacedAt kept before y.num ∧
      x.numIn (optimizerCompactLiterals code) = totalSize code.markedTable.size before ∧
      (y.num = x.num ∨ code.markedTable.Alike y.num x.num) := by
  have hinfo := hwf.infoAt_num hx
  have hlt := hwf.num_lt hx
  obtain ⟨before, c, hplaced, hmap, hsame⟩ :=
    hmerged.mapped x.num (by omega) (by rw [markedTable, hinfo]; simp)
  obtain ⟨info, hc⟩ :=
    ne_none_iff_exists'.mp (hmerged.leaders c hplaced.mem).2
  obtain ⟨y, hy, rfl, -⟩ := hwf.exists_operand hc
  refine ⟨before, y, hy, hplaced, ?_, hsame⟩
  rw [numIn_eq hwf hx, getD_eq_getElem?_getD, hmap]
  rfl

theorem constantAt_new {before : List Nat} (hy : y ∈ constOperands code.opcodes)
    (hplaced : PlacedAt kept before y.num) {t : Nat} (ht : t < y.use.related) :
    constantAt (optimizerCompactLiterals code).literals
        (totalSize code.markedTable.size before + t) = constantAt code.literals (y.num + t) := by
  rw [← hwf.size_num hy] at ht
  have hend := hplaced.end_le code.markedTable.size
  have hcount := hmerged.count
  have hstored : constantAt (mergedState code).literals
      (totalSize code.markedTable.size before + t) = constantAt code.literals (y.num + t) :=
    (hmerged.stored before y.num hplaced).constants t ht
  rw [← hstored, optimizerCompactLiterals_eq (hwf.literals_ne_nil hy), constantAt,
    constantAt, getElem?_take, if_pos (by omega)]

end

theorem arKey_num (code : CompiledCode α) (x : ConstOperand) :
    code.markedTable.arKey x.num (x.mark code) =
      if (x.isString code && x.markedUse.ofThis) = true then
        objKey code.thisVar (x.text code) else if x.markedUse.ofConstClass = true then
        classKey (x.otherText code) (x.text code) else
        x.text code ++ [0] := by
  unfold MarkedTable.arKey
  have hobj : (x.mark code).flags.exObj = (x.isString code && x.markedUse.ofThis) :=
    LiteralUse.info_exObj ..
  have hclass : (x.mark code).flags.exClass = x.markedUse.ofConstClass :=
    LiteralUse.info_exClass ..
  rw [hobj, hclass]
  split
  · case isTrue hthis =>
      have hnum : (x.mark code).num = code.thisVar :=
        LiteralUse.info_num_of_exObj _ _ _ _ hthis
      rw [hnum]
      rfl
  · split
    · case isTrue hmember =>
        have hnum : (x.mark code).num = x.otherNum :=
          LiteralUse.info_num_of_exClass _ _ _ _ hmember
        rw [hnum]
        rfl
    · rfl

theorem markedUse_of_flags (hflags : (y.mark code).flags = (x.mark code).flags)
    (hmerge : (x.mark code).flags.mayMerge = true) : y.markedUse = x.markedUse := by
  have huse : LiteralUse.ofFlags (x.mark code).flags = x.markedUse :=
    LiteralUse.ofFlags_info _ _ _ _ hmerge
  have huse' : LiteralUse.ofFlags (y.mark code).flags = y.markedUse :=
    LiteralUse.ofFlags_info _ _ _ _ (hflags ▸ hmerge)
  rw [← huse, ← huse', hflags]

section

variable (hwf : code.WellFormed)
include hwf

/-- Literals that the loop takes for the same have the same text. -/
theorem text_eq_of_alike (htell : code.KeysTell) (hx : x ∈ constOperands code.opcodes)
    (hy : y ∈ constOperands code.opcodes) (halike : code.markedTable.Alike y.num x.num)
    (htext : (code.markedTable.constant x.num).isText = true) :
    y.markedUse = x.markedUse ∧ y.text code = x.text code := by
  obtain ⟨info', hinfo', hflags, hkey, hmerge⟩ :=
    halike.of_text (hwf.infoAt_num hx) htext
  have hmark : info' = y.mark code :=
    Option.some.inj (hinfo'.symm.trans (hwf.infoAt_num hy))
  subst hmark
  have huse := markedUse_of_flags hflags hmerge
  refine ⟨huse, ?_⟩
  have hobj : (y.isString code && y.markedUse.ofThis) =
      (x.isString code && x.markedUse.ofThis) := by
    have hy' := LiteralUse.info_exObj y.markedUse (y.isString code)
    have hx' := LiteralUse.info_exObj x.markedUse (x.isString code)
    rw [← hy', ← hx']
    exact congrArg LiteralFlags.exObj hflags
  rw [arKey_num, arKey_num, hobj, huse] at hkey
  split at hkey
  · case isTrue hthis =>
      have hthis' := hobj.trans hthis
      rw [Bool.and_eq_true] at hthis hthis'
      exact htell.ofThis y hy x hx huse hthis'.2 hthis'.1 hthis.1 (append_cancel_left hkey)
  · split at hkey
    · case isTrue hmember =>
        exact htell.ofClass y hy x hx huse (by rw [huse]; exact hmember) hkey
    · exact append_cancel_right hkey

theorem related_of_scalar (hx : x ∈ constOperands code.opcodes)
    (htext : (code.markedTable.constant x.num).isText = false) : x.use.related = 1 := by
  have hinfo : infoAt code.markedTable.info x.num = some (x.mark code) :=
    hwf.infoAt_num hx
  rw [← hwf.size_num hx, MarkedTable.size, hinfo]
  simp [htext]

/-- Such literals are followed by the same related literals. -/
theorem group_eq_of_alike (htell : code.KeysTell) (hx : x ∈ constOperands code.opcodes)
    (hy : y ∈ constOperands code.opcodes) (halike : code.markedTable.Alike y.num x.num) :
    y.use.related = x.use.related ∧ ∀ t < x.use.related, constantAt code.literals (y.num + t) =
        constantAt code.literals (x.num + t) := by
  have hfirst : code.markedTable.constant y.num = code.markedTable.constant x.num →
      constantAt code.literals y.num = constantAt code.literals x.num := by
    intro heq
    rw [constantAt_eq (hwf.num_lt hy), constantAt_eq (hwf.num_lt hx)]
    exact congrArg some heq
  by_cases htext : (code.markedTable.constant x.num).isText = true
  · obtain ⟨huse, htexts⟩ := hwf.text_eq_of_alike htell hx hy halike htext
    have hrelated : y.use.related = x.use.related := by
      rw [← y.related_markedUse, ← x.related_markedUse, huse]
    have hconstant := hfirst (LiteralZval.eq_of_sameType (halike.type htext) htexts.symm).symm
    refine ⟨hrelated, fun t ht => ?_⟩
    by_cases hzero : t = 0
    · subst hzero
      exact hconstant
    · have huse' : y.use = x.use := by
        rw [← y.markedUse_eq_use (by omega), ← x.markedUse_eq_use (by omega), huse]
      exact hwf.ofName y hy x hx huse' hconstant t (by omega)
  · have hscalar : (code.markedTable.constant x.num).isText = false := by
      simpa using htext
    have hequal := halike.of_scalar hscalar
    have hx' := hwf.related_of_scalar hx hscalar
    have hy' := hwf.related_of_scalar hy (by rw [hequal]; exact hscalar)
    refine ⟨hy'.trans hx'.symm, fun t ht => ?_⟩
    have hzero : t = 0 := by omega
    subst hzero
    exact hfirst hequal

/-- A string is merged into whatever string was entered first under its
key. -/
theorem numIn_of_key (hmerged : Merged code.markedTable (mergedState code) last kept)
    (hlast : code.literals.length ≤ last) (hx : x ∈ constOperands code.opcodes) {key : LiteralKey}
    (hkey : code.markedTable.key x.num = some key) (hstring : ∀ z ∈ constOperands code.opcodes,
      code.markedTable.key z.num = some key → z.isString code = true) :
    (mergedState code).find key = some (x.numIn (optimizerCompactLiterals code)) := by
  have hlt := hwf.num_lt hx
  obtain ⟨before, c, hplaced, hfound, hmap⟩ :=
    hmerged.known x.num (by omega) key hkey
  obtain ⟨before', c', hplaced', hstart, hc⟩ :=
    hmerged.found key _ (code.markedTable.key_valid hkey) hfound
  obtain ⟨-, rfl⟩ := hplaced.eq_of_start_eq code.markedTable.size
    (fun n _ => code.markedTable.size_pos n) hplaced' hstart
  obtain ⟨info, hinfo⟩ :=
    ne_none_iff_exists'.mp (hmerged.leaders c hplaced.mem).2
  obtain ⟨z, hz, rfl, -⟩ := hwf.exists_operand hinfo
  have htype : (code.markedTable.constant x.num).sameType
      (code.markedTable.constant z.num) = true := by
    have hx' := hstring x hx hkey
    have hz' := hstring z hz hc
    unfold ConstOperand.isString at hx' hz'
    unfold MarkedTable.constant markedTable
    cases hconstant : (literalAt code.literals x.num).constant <;>
      rw [hconstant] at hx' <;> cases hx'
    cases hconstant' : (literalAt code.literals z.num).constant <;>
      rw [hconstant'] at hz' <;> cases hz'
    rfl
  rw [hfound, numIn_eq hwf hx, getD_eq_getElem?_getD, hmap htype]
  rfl

/-- Operands whose strings have one key have one literal in the new table. -/
theorem text_eq_of_key (hkept : LiteralsKept code (optimizerCompactLiterals code))
    (hx : x ∈ constOperands code.opcodes) (hy : y ∈ constOperands code.opcodes) {key : LiteralKey}
    (hkey : code.markedTable.key x.num = some key) (hkey' : code.markedTable.key y.num = some key)
    (hstring : ∀ z ∈ constOperands code.opcodes,
      code.markedTable.key z.num = some key → z.isString code = true) :
    x.text code = y.text code := by
  obtain ⟨kept, last, hlast, hmerged⟩ := hwf.merged
  have hfind := hwf.numIn_of_key hmerged hlast hx hkey hstring
  have hfind' := hwf.numIn_of_key hmerged hlast hy hkey' hstring
  rw [hfind] at hfind'
  have hnum := Option.some.inj hfind'
  have hsame := hkept x hx 0 x.use.related_pos
  have hsame' := hkept y hy 0 y.use.related_pos
  rw [hnum, hsame', add_zero, add_zero,
    constantAt_eq (hwf.num_lt hx), constantAt_eq (hwf.num_lt hy)] at hsame
  unfold ConstOperand.text
  rw [Option.some.inj hsame]

end

theorem isText_of_isString (h : x.isString code = true) :
    (code.markedTable.constant x.num).isText = true := by
  unfold ConstOperand.isString at h
  unfold MarkedTable.constant markedTable
  cases hconstant : (literalAt code.literals x.num).constant <;> rw [hconstant] at h <;> cases h
  rfl

theorem isString_of_ofConstClass (hwf : code.WellFormed) (hx : x ∈ constOperands code.opcodes)
    (hmember : x.markedUse.ofConstClass = true) : x.isString code = true := by
  have hvalue : x.markedUse ≠ .value := by
    intro hvalue
    rw [hvalue] at hmember
    cases hmember
  have huse := ConstOperand.use_of_markedUse rfl hvalue
  apply hwf.names x hx
  rw [huse]
  cases hmarked : x.markedUse <;> rw [hmarked] at hmember <;> first | rfl | cases hmember

theorem key_of_member (hwf : code.WellFormed)
    (hx : x ∈ constOperands code.opcodes) (hstring : x.isString code = true)
    (hmember : (x.isString code && x.markedUse.ofThis) = true ∨ x.markedUse.ofConstClass = true) :
    code.markedTable.key x.num = some (.text (x.markedUse.info true 0 0).flags
      (code.markedTable.arKey x.num (x.mark code))) := by
  have hinfo : infoAt code.markedTable.info x.num = some (x.mark code) :=
    hwf.infoAt_num hx
  have hmerge : (x.mark code).flags.mayMerge = true :=
    LiteralUse.info_mayMerge _ _ _ _ hmember
  have hflags : (x.mark code).flags = (x.markedUse.info true 0 0).flags := by
    unfold ConstOperand.isString at hstring
    rw [ConstOperand.mark, hstring]
    exact LiteralUse.info_flags ..
  rw [code.markedTable.key_text hinfo (isText_of_isString hstring) hmerge, hflags]

theorem isString_of_key (hwf : code.WellFormed) {use : LiteralUse}
    (hmember : use.ofThis = true ∨ use.ofConstClass = true)
    {arKey : KeyBytes} (hx : x ∈ constOperands code.opcodes) (hkey : code.markedTable.key x.num =
      some (.text (use.info true 0 0).flags arKey)) : x.isString code = true := by
  obtain ⟨info, hinfo, ⟨-, -, hsame⟩ | ⟨-, hscalar⟩⟩ :=
    code.markedTable.key_cases hkey
  · have hmark : info = x.mark code :=
      Option.some.inj (hinfo.symm.trans (hwf.infoAt_num hx))
    subst hmark
    simp only [LiteralKey.text.injEq] at hsame
    rcases hmember with hthis | hclass
    · have hobj := congrArg LiteralFlags.exObj hsame.1
      rw [LiteralUse.info_exObj, hthis, ConstOperand.mark, LiteralUse.info_exObj] at hobj
      have hboth := hobj.symm
      rw [Bool.and_true, Bool.and_eq_true] at hboth
      exact hboth.1
    · have hclass' := congrArg LiteralFlags.exClass hsame.1
      rw [LiteralUse.info_exClass, hclass, ConstOperand.mark, LiteralUse.info_exClass] at hclass'
      exact hwf.isString_of_ofConstClass hx hclass'.symm
  · exact absurd hscalar (MarkedTable.scalarKey_ne_text _ _ _)

end CompiledCode.WellFormed

/-- The pass preserves the literals of all operands exactly where its keys
tell the members of `$this` and of constant classes apart. -/
theorem compactLiterals_preserves_iff (code : CompiledCode α) (hwf : code.WellFormed) :
    LiteralsKept code (optimizerCompactLiterals code) ↔ code.KeysTell := by
  obtain ⟨kept, last, hlast, hmerged⟩ := hwf.merged
  constructor
  · intro hkept
    constructor
    · intro x hx y hy huse hthis hxs hys hprinted
      have hkeyx := hwf.key_of_member hx hxs (.inl (by rw [hxs, hthis]; rfl))
      have hkeyy := hwf.key_of_member hy hys (.inl (by rw [hys, ← huse, hthis]; rfl))
      have harKey : code.markedTable.arKey y.num (y.mark code) =
          code.markedTable.arKey x.num (x.mark code) := by
        rw [CompiledCode.WellFormed.arKey_num,
          CompiledCode.WellFormed.arKey_num, ← huse, hxs, hys, hthis]
        simp only [Bool.and_self, if_true, objKey, hprinted]
      rw [← huse, harKey] at hkeyy
      exact hwf.text_eq_of_key hkept hx hy hkeyx hkeyy
        (fun z hz => hwf.isString_of_key (.inl hthis) hz)
    · intro x hx y hy huse hclass hprinted
      have hclass' : y.markedUse.ofConstClass = true := huse ▸ hclass
      have hxs := hwf.isString_of_ofConstClass hx hclass
      have hys := hwf.isString_of_ofConstClass hy hclass'
      have hkeyx := hwf.key_of_member hx hxs (.inr hclass)
      have hkeyy := hwf.key_of_member hy hys (.inr hclass')
      have hnot : x.markedUse.ofThis = false := by
        cases hmarked : x.markedUse <;> rw [hmarked] at hclass <;> first | rfl | cases hclass
      have harKey : code.markedTable.arKey y.num (y.mark code) =
          code.markedTable.arKey x.num (x.mark code) := by
        rw [CompiledCode.WellFormed.arKey_num,
          CompiledCode.WellFormed.arKey_num, ← huse, hxs, hys, hnot, hclass]
        simp only [Bool.and_false, Bool.false_eq_true, if_false, if_true, hprinted]
      rw [← huse, harKey] at hkeyy
      exact hwf.text_eq_of_key hkept hx hy hkeyx hkeyy
        (fun z hz => hwf.isString_of_key (.inr hclass) hz)
  · intro htell x hx t ht
    obtain ⟨before, y, hy, hplaced, hnum, hsame⟩ :=
      hwf.points hmerged hlast hx
    rw [hnum]
    rcases hsame with heq | halike
    · have hrelated : y.use.related = x.use.related := by
        rw [← hwf.size_num hy, ← hwf.size_num hx, heq]
      rw [hwf.constantAt_new hmerged hy hplaced (by omega), heq]
    · obtain ⟨hrelated, hgroup⟩ := hwf.group_eq_of_alike htell hx hy halike
      rw [hwf.constantAt_new hmerged hy hplaced (by omega), hgroup t ht]

/-- `A::M()`, with `$this->p` read and written and the number 7 twice. -/
def memberCode : CompiledCode Unit where
  opcodes :=
    [⟨.initStaticMethodCall, ⟨.const, 0, false⟩, ⟨.const, 2, false⟩, .none, 0⟩,
      ⟨.fetchObjR, .none, ⟨.const, 4, false⟩, ⟨.var, 0, false⟩, 0⟩,
      ⟨.fetchObjW, .none, ⟨.const, 5, false⟩, ⟨.var, 1, false⟩, 0⟩,
      ⟨.echo, ⟨.const, 6, false⟩, .none, .none, 0⟩, ⟨.echo, ⟨.const, 7, false⟩, .none, .none, 0⟩]
  literals :=
    [⟨.string [65], 0, 0⟩, ⟨.string [97], 0, noCacheSlot⟩,
      ⟨.string [77], 0, 1⟩, ⟨.string [109], 0, noCacheSlot⟩,
      ⟨.string [112], 0, 2⟩, ⟨.string [112], 0, 4⟩,
      ⟨.long 7, 0, noCacheSlot⟩, ⟨.long 7, 0, noCacheSlot⟩]
  lastCacheSlot := 6

theorem memberCode_wellFormed : memberCode.WellFormed where
  accepted := by decide
  inTable := by decide
  names := by decide
  notConstant := by decide
  ownLiteral := by decide
  apart := by decide
  ofName := by decide

theorem compactLiterals_preserves_sample :
    LiteralsKept memberCode (optimizerCompactLiterals memberCode) :=
  (compactLiterals_preserves_iff memberCode memberCode_wellFormed).mpr ⟨by decide, by decide⟩

/-- `$this->x` and `$this->y`, where x is `"a\0b"` and y is `"a\0c"`. -/
def nulNameCode : CompiledCode Unit where
  opcodes :=
    [⟨.fetchObjR, .none, ⟨.const, 0, false⟩, ⟨.var, 0, false⟩, 0⟩,
      ⟨.fetchObjR, .none, ⟨.const, 1, false⟩, ⟨.var, 1, false⟩, 0⟩]
  literals := [⟨.string [97, 0, 98], 0, 0⟩, ⟨.string [97, 0, 99], 0, 2⟩]
  lastCacheSlot := 4

theorem nulNameCode_wellFormed : nulNameCode.WellFormed where
  accepted := by decide
  inTable := by decide
  names := by decide
  notConstant := by decide
  ownLiteral := by decide
  apart := by decide
  ofName := by decide

theorem compactLiterals_loses_name : nulNameCode.WellFormed ∧
      ¬LiteralsKept nulNameCode (optimizerCompactLiterals nulNameCode) := by
  refine ⟨nulNameCode_wellFormed, fun hkept => ?_⟩
  have hsecond := hkept ⟨1, nulNameCode.opcodes[1], .op2⟩ (by decide) 0
  exact absurd hsecond (by decide)

end PhpEngine
