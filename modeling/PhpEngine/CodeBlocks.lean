/-
The control flow graph of the block pass (zend_code_block in
ext/opcache/Optimizer/zend_optimizer_internal.h).  The blocks stand in the order of `next`, and a
pointer to a block is its number in this order.
-/
import PhpEngine.OpArray

namespace PhpEngine

/-- `zend_code_block`.  The oplines are the `len` oplines from `start_opline` on, which is NULL
where they were `moved` behind those of another block. -/
structure CodeBlock where
  access : Bool
  opcodes : List ZendOp
  op1To : Option Nat := none
  op2To : Option Nat := none
  extTo : Option Nat := none
  followTo : Option Nat := none
  isProtected : Bool := false
  sources : List Nat := []
  moved : Bool := false
deriving Repr, DecidableEq

abbrev Cfg :=
  List CodeBlock

/-- A block behind the end: no edge leads there. -/
def CodeBlock.outside : CodeBlock :=
  { access := false, opcodes := [] }

def blockAt (cfg : Cfg) (b : Nat) : CodeBlock :=
  cfg.getD b .outside

/-- The blocks that the edges of a block lead to. -/
def CodeBlock.targets (block : CodeBlock) : List Nat :=
  block.op1To.toList ++ block.op2To.toList ++ block.extTo.toList ++ block.followTo.toList

theorem blockAt_outside {cfg : Cfg} {b : Nat} (h : cfg.length ≤ b) : blockAt cfg b = .outside := by
  rw [blockAt, List.getD_eq_getElem?_getD, List.getElem?_eq_none h]
  rfl

theorem lt_of_access {cfg : Cfg} {b : Nat} (h : (blockAt cfg b).access = true) :
    b < cfg.length := by
  by_contra hle
  rw [blockAt_outside (Nat.le_of_not_lt hle)] at h
  cases h

theorem blockAt_mem {cfg : Cfg} {b : Nat} (h : b < cfg.length) : blockAt cfg b ∈ cfg := by
  rw [blockAt, List.getD_eq_getElem?_getD, List.getElem?_eq_getElem h]
  exact List.getElem_mem h

end PhpEngine
