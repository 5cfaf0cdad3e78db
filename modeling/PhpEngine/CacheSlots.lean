/-
The run-time cache slots that the pass hands out.  The kept names have the
slots one behind the other and leave none out, so a name that is missed by the
marking switch has either no slots of its own or those of another name.
-/
import PhpEngine.LiteralPreservation

namespace PhpEngine

variable {α : Type}

/-- The handler uses the cache for this operand: it takes it for a name, which
for a property means a string. -/
def ConstOperand.Cached (code : CompiledCode α) (x : ConstOperand) : Prop :=
  0 < x.use.slots ∧ x.isString code = true

/-- The first cache slot of an operand's literal in other code with the same
oplines. -/
def ConstOperand.slotIn (code : CompiledCode α) (x : ConstOperand) : Nat :=
  (literalAt code.literals (x.numIn code)).cacheSlot

/-- Every literal that an opline uses as a cached name has the slots its use
needs, and no other literal has one of them. -/
structure SlotsOwned (code new : CompiledCode α) : Prop where
  inTable : ∀ x ∈ constOperands code.opcodes, x.Cached code → x.numIn new < new.literals.length
  below : ∀ x ∈ constOperands code.opcodes, x.Cached code →
    x.slotIn new + x.use.slots ≤ new.lastCacheSlot
  disjoint : ∀ x ∈ constOperands code.opcodes, x.Cached code →
    ∀ y ∈ constOperands code.opcodes, y.Cached code → x.numIn new ≠ y.numIn new →
      x.slotIn new + x.use.slots ≤ y.slotIn new ∨ y.slotIn new + y.use.slots ≤ x.slotIn new

namespace CompiledCode.WellFormed

variable {code : CompiledCode α} {x y : ConstOperand} {kept : List Nat} {last : Nat}

/-- The slots that the loop gives to the literal of an operand. -/
theorem slots_num (hwf : code.WellFormed) (hx : x ∈ constOperands code.opcodes) :
    code.markedTable.slots x.num = if (code.markedTable.constant x.num).isText = true then
        x.markedUse.slots else 0 := by
  have hinfo : infoAt code.markedTable.info x.num = some (x.mark code) :=
    hwf.infoAt_num hx
  have hslots : (x.mark code).flags.slots.val = x.markedUse.slots :=
    LiteralUse.info_slots ..
  rw [MarkedTable.slots, hinfo, ← hslots]

/-- Literals that the loop cannot tell apart need the same slots. -/
theorem slots_eq_of_alike (hwf : code.WellFormed) (hx : x ∈ constOperands code.opcodes)
    (hy : y ∈ constOperands code.opcodes) (halike : code.markedTable.Alike y.num x.num) :
    code.markedTable.slots y.num = code.markedTable.slots x.num := by
  by_cases htext : (code.markedTable.constant x.num).isText = true
  · obtain ⟨info', hinfo', hflags, -, hmerge⟩ :=
      halike.of_text (hwf.infoAt_num hx) htext
    have hmark : info' = y.mark code :=
      Option.some.inj (hinfo'.symm.trans (hwf.infoAt_num hy))
    subst hmark
    have htext' : (code.markedTable.constant y.num).isText = true := by
      have htype := halike.type htext
      cases hc : code.markedTable.constant y.num <;> cases hc' : code.markedTable.constant x.num <;>
        rw [hc, hc'] at htype <;> first | rfl | cases htype
    rw [hwf.slots_num hx, hwf.slots_num hy, if_pos htext, if_pos htext',
      markedUse_of_flags hflags hmerge]
  · have hscalar : (code.markedTable.constant x.num).isText = false := by
      simpa using htext
    rw [hwf.slots_num hx, hwf.slots_num hy, halike.of_scalar hscalar, hscalar]
    rfl

/-- The cache slot of the group at a place of the new table. -/
theorem cacheSlot_new (hwf : code.WellFormed)
    (hmerged : Merged code.markedTable (mergedState code) last kept)
    {before : List Nat} (hy : y ∈ constOperands code.opcodes) (hplaced : PlacedAt kept before y.num)
    (hslots : code.markedTable.slots y.num ≠ 0) :
    (literalAt (optimizerCompactLiterals code).literals
        (totalSize code.markedTable.size before)).cacheSlot =
      totalSize code.markedTable.slots before := by
  have hstored := (hmerged.stored before y.num hplaced).cacheSlot
  rw [if_neg hslots] at hstored
  have hend := hplaced.end_le code.markedTable.size
  have hpos := code.markedTable.size_pos y.num
  have hcount := hmerged.count
  rw [← hstored, optimizerCompactLiterals_eq (hwf.literals_ne_nil hy)]
  apply congrArg
  apply literalAt_of_getElem?
  rw [List.getElem?_take, if_pos (by omega)]

theorem lastCacheSlot_new (hmerged : Merged code.markedTable (mergedState code) last kept)
    (hne : code.literals ≠ []) : (optimizerCompactLiterals code).lastCacheSlot =
      totalSize code.markedTable.slots kept := by
  rw [optimizerCompactLiterals_eq hne]
  exact hmerged.cacheSlots

section

variable (hwf : code.WellFormed) (hmerged : Merged code.markedTable (mergedState code) last kept)
include hwf hmerged

theorem numIn_lt (hlast : code.literals.length ≤ last) (hx : x ∈ constOperands code.opcodes) :
    x.numIn (optimizerCompactLiterals code) < (optimizerCompactLiterals code).literals.length := by
  obtain ⟨before, y, hy, hplaced, hnum, -⟩ := hwf.points hmerged hlast hx
  have hconstant := hwf.constantAt_new hmerged hy hplaced y.use.related_pos
  rw [add_zero, add_zero, constantAt_eq (hwf.num_lt hy), ← hnum] at hconstant
  obtain ⟨literal, hliteral, -⟩ := Option.map_eq_some_iff.mp hconstant
  exact (List.getElem?_eq_some_iff.mp hliteral).1

/-- The place of a literal for which the switch saw its use. -/
theorem slotIn_eq (hlast : code.literals.length ≤ last) (hx : x ∈ constOperands code.opcodes)
    (hcached : x.Cached code) (huse : x.markedUse = x.use) :
    ∃ before c, PlacedAt kept before c ∧ x.numIn (optimizerCompactLiterals code) =
        totalSize code.markedTable.size before ∧ x.slotIn (optimizerCompactLiterals code) =
        totalSize code.markedTable.slots before ∧ code.markedTable.slots c = x.use.slots := by
  obtain ⟨before, y, hy, hplaced, hnum, hsame⟩ := hwf.points hmerged hlast hx
  have hslots : code.markedTable.slots y.num = x.use.slots := by
    have hx' : code.markedTable.slots x.num = x.use.slots := by
      rw [hwf.slots_num hx, if_pos (isText_of_isString hcached.2), huse]
    rcases hsame with heq | halike
    · rw [heq, hx']
    · rw [hwf.slots_eq_of_alike hx hy halike, hx']
  have hpos := hcached.1
  refine ⟨before, y.num, hplaced, hnum, ?_, hslots⟩
  rw [ConstOperand.slotIn, hnum]
  exact hwf.cacheSlot_new hmerged hy hplaced (by omega)

/-- Every slot belongs to an operand for which the switch saw its use. -/
theorem exists_owner {slot : Nat} (hslot : slot < totalSize code.markedTable.slots kept) :
    ∃ before z, z ∈ constOperands code.opcodes ∧ PlacedAt kept before z.num ∧ z.Cached code ∧
      code.markedTable.slots z.num ≠ 0 ∧ z.numIn (optimizerCompactLiterals code) =
        totalSize code.markedTable.size before ∧ z.slotIn (optimizerCompactLiterals code) ≤ slot ∧
      slot < z.slotIn (optimizerCompactLiterals code) + z.use.slots := by
  obtain ⟨before, c, hplaced, hle, hlt⟩ :=
    exists_placedAt_of_lt code.markedTable.slots kept hslot
  obtain ⟨info, hinfo⟩ :=
    Option.ne_none_iff_exists'.mp (hmerged.leaders c hplaced.mem).2
  obtain ⟨z, hz, rfl, -⟩ := hwf.exists_operand hinfo
  have hslots : code.markedTable.slots z.num ≠ 0 := by omega
  have hvalue : z.markedUse ≠ .value := by
    intro hvalue
    rw [hwf.slots_num hz, hvalue] at hslots
    exact hslots (by split <;> rfl)
  have huse : z.use = z.markedUse := ConstOperand.use_of_markedUse rfl hvalue
  have htext : (code.markedTable.constant z.num).isText = true := by
    by_contra htext
    rw [hwf.slots_num hz, if_neg htext] at hslots
    exact hslots rfl
  have hneeds : code.markedTable.slots z.num = z.use.slots := by
    rw [hwf.slots_num hz, if_pos htext, huse]
  have hcached : z.Cached code :=
    ⟨by omega, hwf.notConstant z hz (huse ▸ hvalue) htext⟩
  have hnum : z.numIn (optimizerCompactLiterals code) = totalSize code.markedTable.size before := by
    rw [numIn_eq hwf hz, List.getD_eq_getElem?_getD, hmerged.own before z.num hplaced]
    rfl
  refine ⟨before, z, hz, hplaced, hcached, hslots, hnum, ?_, ?_⟩
  · rw [ConstOperand.slotIn, hnum, hwf.cacheSlot_new hmerged hz hplaced hslots]
    exact hle
  · rw [ConstOperand.slotIn, hnum, hwf.cacheSlot_new hmerged hz hplaced hslots]
    omega

/-- The literal of a missed name is merged with plain values. -/
theorem slots_of_missed (hlast : code.literals.length ≤ last) (hx : x ∈ constOperands code.opcodes)
    (hvalue : x.markedUse = .value) :
    ∃ before c, PlacedAt kept before c ∧ x.numIn (optimizerCompactLiterals code) =
        totalSize code.markedTable.size before ∧ code.markedTable.slots c = 0 := by
  obtain ⟨before, y, hy, hplaced, hnum, hsame⟩ := hwf.points hmerged hlast hx
  refine ⟨before, y.num, hplaced, hnum, ?_⟩
  have hx' : code.markedTable.slots x.num = 0 := by
    rw [hwf.slots_num hx, hvalue]
    split <;> rfl
  rcases hsame with heq | halike
  · rw [heq, hx']
  · rw [hwf.slots_eq_of_alike hx hy halike, hx']

end

end CompiledCode.WellFormed

/-- `**=` is applied to no property of an object by a constant name. -/
def CompiledCode.NoPowOnProperty (code : CompiledCode α) : Prop :=
  ∀ x ∈ constOperands code.opcodes, x.opline.opcode = .assignPow →
    x.opline.extendedValue = zendAssignObj → x.side = .op2 →
    x.isString code = false

theorem markedUse_of_noPow {code : CompiledCode α} (hpow : code.NoPowOnProperty) {x : ConstOperand}
    (hx : x ∈ constOperands code.opcodes) (hcached : x.Cached code) : x.markedUse = x.use := by
  rcases x.markedUse_cases with hsame | ⟨hopcode, -⟩
  · exact hsame
  · rcases ConstOperand.use_of_assignPow hopcode with huse | ⟨hside, hobj, -⟩
    · have hpos := hcached.1
      rw [huse] at hpos
      cases hpos
    · have hfalse := hpow x hx hopcode hobj hside
      rw [hcached.2] at hfalse
      cases hfalse

/-- The literals of cached names own their cache slots exactly where the one
opcode that the marking switch misses is not used on a property. -/
theorem compactLiterals_slots_iff (code : CompiledCode α) (hwf : code.WellFormed) :
    SlotsOwned code (optimizerCompactLiterals code) ↔ code.NoPowOnProperty := by
  obtain ⟨kept, last, hlast, hmerged⟩ := hwf.merged
  constructor
  · intro howned x hx hopcode hobj hside
    by_contra hstring
    have huse : x.use = .property (x.opline.op1.type = .unused) := by
      unfold ConstOperand.use ZendOp.use
      rw [hopcode, hside]
      exact if_pos hobj
    have hcached : x.Cached code :=
      ⟨by rw [huse]; exact Nat.two_pos, by simpa using hstring⟩
    have hvalue : x.markedUse = .value := by
      unfold ConstOperand.markedUse
      rw [hopcode, hside]
      rfl
    have hbelow := howned.below x hx hcached
    have hpos := hcached.1
    rw [CompiledCode.WellFormed.lastCacheSlot_new hmerged (hwf.literals_ne_nil hx)] at hbelow
    -- the slot below the end has an owner, and that is another literal
    obtain ⟨before, z, hz, hplaced, hzcached, hzslots, hznum, hle, hlt⟩ :=
      hwf.exists_owner hmerged (lt_of_lt_of_le (Nat.lt_add_of_pos_right hpos) hbelow)
    obtain ⟨before', c, hplaced', hxnum, hxslots⟩ :=
      hwf.slots_of_missed hmerged hlast hx hvalue
    have hne : x.numIn (optimizerCompactLiterals code) ≠
        z.numIn (optimizerCompactLiterals code) := by
      intro heq
      rw [hxnum, hznum] at heq
      obtain ⟨-, rfl⟩ := hplaced'.eq_of_start_eq code.markedTable.size
        (fun n _ => code.markedTable.size_pos n) hplaced heq
      exact hzslots hxslots
    rcases howned.disjoint x hx hcached z hz hzcached hne with hend | hend
    · omega
    · omega
  · intro hpow
    constructor
    · intro x hx _
      exact hwf.numIn_lt hmerged hlast hx
    · intro x hx hcached
      obtain ⟨before, c, hplaced, hnum, hslot, hslots⟩ :=
        hwf.slotIn_eq hmerged hlast hx hcached (markedUse_of_noPow hpow hx hcached)
      rw [hslot, ← hslots, CompiledCode.WellFormed.lastCacheSlot_new hmerged
        (hwf.literals_ne_nil hx)]
      exact hplaced.end_le _
    · intro x hx hxcached y hy hycached hne
      obtain ⟨before, c, hplaced, hnum, hslot, hslots⟩ :=
        hwf.slotIn_eq hmerged hlast hx hxcached (markedUse_of_noPow hpow hx hxcached)
      obtain ⟨before', c', hplaced', hnum', hslot', hslots'⟩ :=
        hwf.slotIn_eq hmerged hlast hy hycached (markedUse_of_noPow hpow hy hycached)
      rw [hslot, hslot', ← hslots, ← hslots']
      rcases hplaced.apart code.markedTable.slots hplaced' with
        ⟨rfl, -⟩ | hapart
      · exact absurd (hnum.trans hnum'.symm) hne
      · exact hapart

theorem compactLiterals_slots_sample :
    SlotsOwned memberCode (optimizerCompactLiterals memberCode) := by
  have hpow : memberCode.NoPowOnProperty := by
    unfold CompiledCode.NoPowOnProperty
    decide
  exact (compactLiterals_slots_iff memberCode memberCode_wellFormed).mpr hpow

/-- `$o->q` and then `$o->p **= 2`. -/
def powCode : CompiledCode Unit where
  opcodes :=
    [⟨.fetchObjR, ⟨.cv, 0, false⟩, ⟨.const, 0, false⟩, ⟨.var, 0, false⟩, 0⟩,
      ⟨.assignPow, ⟨.cv, 0, false⟩, ⟨.const, 1, false⟩, ⟨.var, 1, false⟩, zendAssignObj⟩,
      ⟨.opData, ⟨.const, 2, false⟩, ⟨.var, 2, false⟩, .none, 0⟩]
  literals := [⟨.string [113], 0, 0⟩, ⟨.string [112], 0, 2⟩, ⟨.long 2, 0, noCacheSlot⟩]
  lastCacheSlot := 4

theorem powCode_wellFormed : powCode.WellFormed where
  accepted := by decide
  inTable := by decide +kernel
  names := by decide
  notConstant := by decide
  ownLiteral := by decide
  apart := by decide
  ofName := by decide

/-- The name behind `**=` keeps its old slots 2 and 3, and the cache has two
cells. -/
theorem compactLiterals_slots_pow : powCode.WellFormed ∧
      ¬SlotsOwned powCode (optimizerCompactLiterals powCode) := by
  refine ⟨powCode_wellFormed, fun howned => ?_⟩
  have hbelow := howned.below ⟨1, powCode.opcodes[1], .op2⟩ (by decide) ⟨by decide, by decide⟩
  exact absurd hbelow (by decide)

end PhpEngine
