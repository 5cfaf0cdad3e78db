/-
The grammar of RFC 4627 over UTF-16 units, and two ways to depart from it:
fractions without a digit, and names that start with the escape of NUL.  A
derivation carries a bound on the nesting of arrays and objects.
-/
import Mathlib.Data.List.Basic

namespace PhpEngine.Json

/-- A character of the source text as a UTF-16 unit. -/
def unit (c : Char) : UInt16 :=
  UInt16.ofNat c.toNat

def units (s : String) : List UInt16 :=
  s.toList.map unit

/-- A finite set of units is checked one unit after the other. -/
theorem forall_units {l : List UInt16} {p : UInt16 → Prop} [DecidablePred p]
    (h : l.all (fun u => decide (p u)) = true) : ∀ u ∈ l, p u :=
  fun u hu => of_decide_eq_true (List.all_eq_true.mp h u hu)

def isWs (u : UInt16) : Bool :=
  u == unit ' ' || u == unit '\t' || u == unit '\n' || u == unit '\r'

def isDigitUnit (u : UInt16) : Bool :=
  unit '0' ≤ u && u ≤ unit '9'

def isHexUnit (u : UInt16) : Bool :=
  isDigitUnit u || (unit 'A' ≤ u && u ≤ unit 'F') || (unit 'a' ≤ u && u ≤ unit 'f')

def Ws (w : List UInt16) : Prop :=
  ∀ u ∈ w, isWs u = true

def Digits (w : List UInt16) : Prop :=
  ∀ u ∈ w, isDigitUnit u = true

/-- What a grammar allows beyond or withholds from JSON. -/
structure Dialect where
  bareFraction : Bool
  nulNames : Bool
deriving Repr, DecidableEq

def rfc4627 : Dialect := ⟨false, true⟩

/-- `zero / ( digit1-9 *DIGIT )` -/
inductive IntPart : List UInt16 → Prop where
  | zero : IntPart [unit '0']
  | more {first : UInt16} {rest : List UInt16} :
      isDigitUnit first = true → first ≠ unit '0' → Digits rest → IntPart (first :: rest)

/-- `[ decimal-point 1*DIGIT ]` -/
inductive FracPart (d : Dialect) : List UInt16 → Prop where
  | none : FracPart d []
  | some {digits : List UInt16} : Digits digits → (digits = [] → d.bareFraction = true) →
        FracPart d (unit '.' :: digits)

/-- `[ e [ minus / plus ] 1*DIGIT ]` -/
inductive ExpPart : List UInt16 → Prop where
  | none : ExpPart []
  | some {e : UInt16} {sign digits : List UInt16} : e = unit 'e' ∨ e = unit 'E' →
        sign = [] ∨ sign = [unit '+'] ∨ sign = [unit '-'] →
        Digits digits → digits ≠ [] → ExpPart (e :: (sign ++ digits))

inductive Number (d : Dialect) : List UInt16 → Prop where
  | mk {minus int frac exp : List UInt16} :
      minus = [] ∨ minus = [unit '-'] → IntPart int → FracPart d frac →
        ExpPart exp → Number d (minus ++ int ++ frac ++ exp)

/-- The characters of a string; the unescaped ones exclude the control
characters. -/
inductive StringChar : List UInt16 → Prop where
  | unescaped {u : UInt16} : 32 ≤ u.toNat → u ≠ unit '"' → u ≠ unit '\\' → StringChar [u]
  | escape {u : UInt16} : u ∈ units "\"\\/bfnrt" → StringChar [unit '\\', u]
  | hex {a b c d : UInt16} : isHexUnit a = true → isHexUnit b = true → isHexUnit c = true →
        isHexUnit d = true → StringChar [unit '\\', unit 'u', a, b, c, d]

def quoted (chars : List (List UInt16)) : List UInt16 :=
  unit '"' :: (chars.flatten ++ [unit '"'])

def nulEscape : List UInt16 :=
  units "\\u0000"

def IsString (w : List UInt16) : Prop :=
  ∃ chars, (∀ c ∈ chars, StringChar c) ∧ w = quoted chars

/-- The name of a member. -/
def Name (d : Dialect) (w : List UInt16) : Prop :=
  ∃ chars, (∀ c ∈ chars, StringChar c) ∧ w = quoted chars ∧
    (chars.head? = some nulEscape → d.nulNames = true)

/-- The nonterminals whose texts can nest. -/
inductive Symbol where
  | value | array | object | element | elements | member | members
deriving Repr, DecidableEq

/-- The texts of a nonterminal in which at most the given number of arrays and
objects are nested. -/
inductive Gen (d : Dialect) : Symbol → Nat → List UInt16 → Prop where
  | literal {n : Nat} {w : List UInt16} : w = units "true" ∨ w = units "false" ∨ w = units "null" →
        Gen d .value n w
  | number {n : Nat} {w : List UInt16} : Number d w → Gen d .value n w
  | string {n : Nat} {w : List UInt16} : IsString w → Gen d .value n w
  | ofArray {n : Nat} {w : List UInt16} : Gen d .array n w → Gen d .value n w
  | ofObject {n : Nat} {w : List UInt16} : Gen d .object n w → Gen d .value n w
  | emptyArray {n : Nat} {a : List UInt16} :
      Ws a → Gen d .array (n + 1) (unit '[' :: (a ++ [unit ']']))
  | array {n : Nat} {w : List UInt16} : Gen d .elements n w →
        Gen d .array (n + 1) (unit '[' :: (w ++ [unit ']']))
  | emptyObject {n : Nat} {a : List UInt16} :
      Ws a → Gen d .object (n + 1) (unit '\x7b' :: (a ++ [unit '\x7d']))
  | object {n : Nat} {w : List UInt16} : Gen d .members n w →
        Gen d .object (n + 1) (unit '\x7b' :: (w ++ [unit '\x7d']))
  | element {n : Nat} {a w b : List UInt16} :
      Ws a → Gen d .value n w → Ws b → Gen d .element n (a ++ w ++ b)
  | oneElement {n : Nat} {w : List UInt16} : Gen d .element n w → Gen d .elements n w
  | moreElements {n : Nat} {v w : List UInt16} : Gen d .elements n v → Gen d .element n w →
        Gen d .elements n (v ++ unit ',' :: w)
  | member {n : Nat} {a name b w : List UInt16} : Ws a → Name d name → Ws b → Gen d .element n w →
        Gen d .member n (a ++ name ++ b ++ unit ':' :: w)
  | oneMember {n : Nat} {w : List UInt16} : Gen d .member n w → Gen d .members n w
  | moreMembers {n : Nat} {v w : List UInt16} : Gen d .members n v → Gen d .member n w →
        Gen d .members n (v ++ unit ',' :: w)

/-- An array, an object or a bare string. -/
def JsonText (d : Dialect) (n : Nat) (w : List UInt16) : Prop :=
  ∃ a v b, Ws a ∧ Ws b ∧ w = a ++ v ++ b ∧ (Gen d .array n v ∨ Gen d .object n v ∨ IsString v)

/-- A text in which fewer than `depth` arrays and objects are nested. -/
def Generates (d : Dialect) (depth : Nat) (w : List UInt16) : Prop :=
  ∃ n < depth, JsonText d n w

end PhpEngine.Json
