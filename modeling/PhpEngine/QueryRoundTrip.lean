/-
A query string that was built from an array is read back as that array.  Both
sides are compared by the leaves of the array, each under its path of keys.
-/
import PhpEngine.QueryText

namespace PhpEngine

open List Option

variable {key : HashKey} {settings : InputSettings}

/-- A string in an array, with the keys that lead to it. -/
structure QueryLeaf where
  top : HashKey
  path : List HashKey
  val : List UInt8

/-- The strings of an array in order. -/
def queryLeaves : List (HashKey × QueryVar) → List QueryLeaf
  | [] => []
  | (key, .array ⟨sub, _, _⟩) :: items =>
    (queryLeaves sub).map (fun leaf =>
      ⟨key, leaf.top :: leaf.path, leaf.val⟩) ++ queryLeaves items
  | (key, .string s) :: items => ⟨key, [], s⟩ :: queryLeaves items
  | _ :: items => queryLeaves items

/-- A key of the array itself: an integer, or a name that the reader takes as it
is. -/
def TopKey : HashKey → Prop
  | .long h => h < ulongMod
  | .string key => ∃ b : List UInt8, key = b ++ [0] ∧ b ≠ [] ∧
      handleNumeric b = none ∧
      ∀ c ∈ b, c ≠ byte ' ' ∧ c ≠ byte '.' ∧ c ≠ byte '[' ∧ c ≠ 0

/-- A key of an array in it. -/
def NestedKey (isspace : UInt8 → Bool) : HashKey → Prop
  | .long h => h < ulongMod
  | .string key => ∃ b : List UInt8, key = b ++ [0] ∧ b ≠ [] ∧
      handleNumeric b = none ∧ (∀ c ∈ b, c ≠ byte ']' ∧ c ≠ 0) ∧
      ∀ c, b = [c] → isspace c = false

/-- The items of an array with distinct keys, whose values are strings and
arrays that are not empty. -/
inductive Queryable (isspace : UInt8 → Bool) :
    (HashKey → Prop) → List (HashKey × QueryVar) → Prop
  | nil {P : HashKey → Prop} : Queryable isspace P []
  | string {P : HashKey → Prop} {key : HashKey} {s : List UInt8}
      {items : List (HashKey × QueryVar)} :
      P key → key ∉ items.map Prod.fst → Queryable isspace P items →
      Queryable isspace P ((key, .string s) :: items)
  | array {P : HashKey → Prop} {key : HashKey} {table : OrderedMap QueryVar}
      {items : List (HashKey × QueryVar)} :
      P key → key ∉ items.map Prod.fst → table.items ≠ [] →
      Queryable isspace (NestedKey isspace) table.items →
      Queryable isspace P items →
      Queryable isspace P ((key, .array table) :: items)

/-- The same keys in the same order, with the same strings and arrays. -/
inductive SameVars :
    List (HashKey × QueryVar) → List (HashKey × QueryVar) → Prop
  | nil : SameVars [] []
  | string {key : HashKey} {s : List UInt8} {items items' : List (HashKey × QueryVar)} :
      SameVars items items' →
      SameVars ((key, .string s) :: items) ((key, .string s) :: items')
  | array {key : HashKey} {table table' : OrderedMap QueryVar}
      {items items' : List (HashKey × QueryVar)} :
      SameVars table.items table'.items → SameVars items items' →
      SameVars ((key, .array table) :: items) ((key, .array table') :: items')

theorem queryLeaves_array (key : HashKey) (table : OrderedMap QueryVar)
    (items : List (HashKey × QueryVar)) : queryLeaves ((key, .array table) :: items) =
      (queryLeaves table.items).map (fun leaf =>
        ⟨key, leaf.top :: leaf.path, leaf.val⟩) ++ queryLeaves items := by
  rw [queryLeaves]

theorem queryLeaves_string (key : HashKey) (s : List UInt8) (items : List (HashKey × QueryVar)) :
    queryLeaves ((key, .string s) :: items) = ⟨key, [], s⟩ :: queryLeaves items := by
  rw [queryLeaves]

variable {isspace : UInt8 → Bool} {P : HashKey → Prop}
variable {items : List (HashKey × QueryVar)}

theorem Queryable.leaves_ne_nil (h : Queryable isspace P items)
    (hne : items ≠ []) : queryLeaves items ≠ [] := by
  induction h with
  | nil => exact absurd rfl hne
  | string hkey hnew hitems ih =>
    rw [queryLeaves_string]
    exact cons_ne_nil _ _
  | array hkey hnew hsub hqueryable hitems ihsub ih =>
    rw [queryLeaves_array]
    have hleaves := ihsub hsub
    simp [hleaves]

theorem Queryable.leaf_keys (h : Queryable isspace P items) : ∀ leaf ∈ queryLeaves items,
      P leaf.top ∧ ∀ key ∈ leaf.path, NestedKey isspace key := by
  induction h with
  | nil =>
    rw [queryLeaves]
    simp
  | string hkey hnew hitems ih =>
    rw [queryLeaves_string]
    intro leaf hleaf
    rcases mem_cons.mp hleaf with rfl | hleaf
    · exact ⟨hkey, by simp⟩
    · exact ih leaf hleaf
  | array hkey hnew hsub hqueryable hitems ihsub ih =>
    rw [queryLeaves_array]
    intro leaf hleaf
    rcases mem_append.mp hleaf with hleaf | hleaf
    · obtain ⟨inner, hinner, rfl⟩ := List.mem_map.mp hleaf
      obtain ⟨htop, hpath⟩ := ihsub inner hinner
      refine ⟨hkey, ?_⟩
      intro key hmem
      rcases mem_cons.mp hmem with rfl | hmem
      · exact htop
      · exact hpath key hmem
    · exact ih leaf hleaf

/-! The builder. -/

section Builder

variable (enc : QueryEncType)

/-- The nested keys of a leaf in a query string. -/
def bracketText (path : List HashKey) : List UInt8 :=
  path.flatMap fun key => bytesOf "%5B" ++ enc.encodeKey [] key ++ bytesOf "%5D"

/-- The variable of a leaf in a query string. -/
def leafText (keyPrefix keySuffix : List UInt8) (leaf : QueryLeaf) : List UInt8 :=
  keyPrefix ++ enc.encodeKey [] leaf.top ++ keySuffix ++
    bracketText enc leaf.path ++ [byte '='] ++ enc.encode leaf.val

/-- One more variable in a query string. -/
def joinVar (argSep formstr var : List UInt8) : List UInt8 :=
  (if formstr ≠ [] then formstr ++ argSep else formstr) ++ var

theorem phpUrlEncodeHashEx_leaves (argSep : List UInt8)
    (h : Queryable isspace P items) (keyPrefix keySuffix formstr : List UInt8) :
    phpUrlEncodeHashEx enc argSep [] keyPrefix keySuffix items formstr =
      ((queryLeaves items).map (leafText enc keyPrefix keySuffix)).foldl
        (joinVar argSep) formstr := by
  induction h generalizing keyPrefix keySuffix formstr with
  | nil =>
    rw [phpUrlEncodeHashEx, queryLeaves]
    rfl
  | string hkey hnew hitems ih =>
    rw [phpUrlEncodeHashEx, queryLeaves_string, ih, map_cons, foldl_cons]
    · simp [joinVar, leafText, bracketText, QueryEncType.encodeValue]
    · simp
    · simp
  | @array P key table items hkey hnew hsub hqueryable hitems ihsub ih =>
    have htext : (leafText enc (keyPrefix ++ enc.encodeKey [] key ++ keySuffix ++
        bytesOf "%5B") (bytesOf "%5D")) = fun leaf =>
        leafText enc keyPrefix keySuffix ⟨key, leaf.top :: leaf.path, leaf.val⟩ := by
      funext leaf
      simp [leafText, bracketText]
    rw [phpUrlEncodeHashEx, queryLeaves_array, map_append, List.map_map, foldl_append, ih]
    simp only [ihsub, htext]
    rfl

theorem foldl_joinVar {argSep formstr : List UInt8} (hne : formstr ≠ [])
    (vars : List (List UInt8)) : vars.foldl (joinVar argSep) formstr =
      formstr ++ vars.flatMap (argSep ++ ·) := by
  induction vars generalizing formstr with
  | nil => simp
  | cons var vars ih =>
    rw [foldl_cons, joinVar, if_pos hne, ih (by simp [hne])]
    simp

end Builder

/-! The names. -/

/-- A key without its NUL. -/
def queryKeyText : HashKey → List UInt8
  | .long h => printLong (toLong h)
  | .string key => if key.getLast? = some 0 then key.dropLast else key

/-- The nested keys of a leaf in the name of its variable. -/
def bracketName (path : List HashKey) : List UInt8 :=
  path.flatMap fun key => [byte '['] ++ queryKeyText key ++ [byte ']']

theorem urlText_encodeKey (enc : QueryEncType) (key : HashKey) :
    UrlText (enc.encodeKey [] key) (queryKeyText key) := by
  cases key with
  | long h => exact urlText_printLong (toLong h)
  | string key => exact enc.urlText_encode _

theorem urlText_bracketText (enc : QueryEncType) (path : List HashKey) :
    UrlText (bracketText enc path) (bracketName path) := by
  have hopen : UrlText (bytesOf "%5B") [byte '['] :=
    ⟨phpUrlDecode_percent (by decide) (by decide), forall_mem_of_all (by decide)⟩
  have hclose : UrlText (bytesOf "%5D") [byte ']'] :=
    ⟨phpUrlDecode_percent (by decide) (by decide), forall_mem_of_all (by decide)⟩
  induction path with
  | nil => exact .nil
  | cons key path ih =>
    exact ((hopen.append (urlText_encodeKey enc key)).append hclose).append ih

/-- What a key without its NUL has to be for the reader. -/
structure KeyText (key : HashKey) (stop : UInt8 → Prop) : Prop where
  symtable : symtableKey (queryKeyText key) = key
  ne_nil : queryKeyText key ≠ []
  bytes : ∀ c ∈ queryKeyText key, ¬ stop c

theorem queryKeyText_string (b : List UInt8) : queryKeyText (.string (b ++ [0])) = b := by
  simp [queryKeyText]

theorem keyText_long {h : Nat} (hh : h < ulongMod) {stop : UInt8 → Prop}
    (hstop : ∀ c, isDigit c = true ∨ c = byte '-' → ¬ stop c) : KeyText (.long h) stop where
  symtable := symtableKey_printLong hh
  ne_nil := by
    rw [queryKeyText, printLong]
    split
    · exact cons_ne_nil _ _
    · exact ne_nil_of_length_pos (printUnsigned_length_pos _)
  bytes := fun c hc => hstop c (printLong_bytes _ c hc)

theorem keyText_string {b : List UInt8} (hne : b ≠ [])
    (hnumeric : handleNumeric b = none) {stop : UInt8 → Prop}
    (hstop : ∀ c ∈ b, ¬ stop c) : KeyText (.string (b ++ [0])) stop where
  symtable := by rw [queryKeyText_string, symtableKey, hnumeric]
  ne_nil := by rwa [queryKeyText_string]
  bytes := by rwa [queryKeyText_string]

/-- The bytes that end or change the name of a variable. -/
def isNameSyntax (c : UInt8) : Prop :=
  c = byte ' ' ∨ c = byte '.' ∨ c = byte '[' ∨ c = 0

instance (c : UInt8) : Decidable (isNameSyntax c) :=
  inferInstanceAs (Decidable (_ ∨ _))

/-- The bytes that end an index. -/
def isIndexSyntax (c : UInt8) : Prop :=
  c = byte ']' ∨ c = 0

instance (c : UInt8) : Decidable (isIndexSyntax c) :=
  inferInstanceAs (Decidable (_ ∨ _))

theorem TopKey.keyText (h : TopKey key) : KeyText key isNameSyntax := by
  cases key with
  | long h' =>
    apply keyText_long h
    apply forall_byte
    decide +kernel
  | string key =>
    obtain ⟨b, rfl, hne, hnumeric, hbytes⟩ := h
    apply keyText_string hne hnumeric
    intro c hc
    obtain ⟨hspace, hdot, hbracket, hnul⟩ := hbytes c hc
    simp [isNameSyntax, hspace, hdot, hbracket, hnul]

theorem NestedKey.keyText (h : NestedKey isspace key) : KeyText key isIndexSyntax := by
  cases key with
  | long h' =>
    apply keyText_long h
    apply forall_byte
    decide +kernel
  | string key =>
    obtain ⟨b, rfl, hne, hnumeric, hbytes, -⟩ := h
    apply keyText_string hne hnumeric
    intro c hc
    obtain ⟨hbracket, hnul⟩ := hbytes c hc
    simp [isIndexSyntax, hbracket, hnul]

/-- A digit is not a blank, so that no integer key is taken for an empty
index. -/
theorem NestedKey.not_blank (hdigit : ∀ c, isDigit c = true → isspace c = false)
    (h : NestedKey isspace key) : ∀ c, queryKeyText key = [c] → isspace c = false := by
  cases key with
  | long h' =>
    intro c hc
    apply hdigit
    rw [queryKeyText, printLong] at hc
    split at hc
    · have hlength := printUnsigned_length_pos ((-toLong h').toNat % ulongMod)
      have htail := congrArg List.length (congrArg List.tail hc)
      simp only [tail_cons, length_nil] at htail
      omega
    · apply printUnsigned_digits (toLong h').toNat
      rw [hc]
      exact mem_singleton_self c
  | string key =>
    obtain ⟨b, rfl, -, -, -, hblank⟩ := h
    rwa [queryKeyText_string]

theorem queryIndex_key {text behind : List UInt8} (hne : text ≠ [])
    (hbytes : ∀ c ∈ text, c ≠ byte ']') (hblank : ∀ c, text = [c] → isspace c = false) :
    queryIndex isspace (text ++ byte ']' :: behind) = some (some text, behind) := by
  have hfind : ∀ l : List UInt8, (∀ c ∈ l, c ≠ byte ']') →
      (l ++ byte ']' :: behind).takeWhile (· ≠ byte ']') = l := by
    intro l hl
    rw [takeWhile_append_of_pos (by simpa using hl)]
    simp
  cases text with
  | nil => exact absurd rfl hne
  | cons c text =>
    have hc := hbytes c mem_cons_self
    have htext : ∀ d ∈ text, d ≠ byte ']' :=
      fun d hd => hbytes d (mem_cons_of_mem c hd)
    by_cases hspace : isspace c = true
    · cases text with
      | nil =>
        rw [hblank c rfl] at hspace
        cases hspace
      | cons d text =>
        have hd := htext d mem_cons_self
        have hname := hfind (d :: text) htext
        simp only [cons_append] at hname
        simp only [queryIndex, cons_append, head?_cons,
          map_some, getD_some, hspace, if_true, tail_cons]
        rw [if_neg (by simpa using hd), hname, if_pos (by simp)]
        have hlen : (c :: d :: (text ++ byte ']' :: behind)).length -
            (d :: (text ++ byte ']' :: behind)).length +
            (d :: text).length = (c :: d :: text).length := by
          simp only [length_cons]
          omega
        rw [hlen, ← cons_append, ← cons_append, take_left]
        simp
    · have hname := hfind (c :: text) hbytes
      simp only [cons_append] at hname
      simp only [queryIndex, cons_append, head?_cons,
        map_some, getD_some, hspace, Bool.false_eq_true,
        if_false]
      rw [if_neg (by simpa using hc), hname, if_pos (by simp), Nat.sub_self,
        zero_add, ← cons_append, take_left]
      simp

/-! The reader. -/

namespace OrderedMap

variable {δ : Type}

theorem items_store_of_notMem {m : OrderedMap δ} (h : key ∉ m.keys) (data : δ) :
    (m.store key data).items = m.items ++ [(key, data)] := by
  rw [store, if_neg h]

theorem find_of_notMem {m : OrderedMap δ} (h : key ∉ m.keys) : m.find key = none := by
  rw [find, map_eq_none_iff, find?_eq_none]
  intro item hitem heq
  exact h (of_decide_eq_true heq ▸ List.mem_map_of_mem hitem)

/-- The array under a key, or a new one. -/
def arrayAt (m : OrderedMap QueryVar) (key : HashKey) : OrderedMap QueryVar :=
  match m.find key with
  | some (.array table) => table
  | _ => .empty

end OrderedMap

/-- Put a string into an array under its path of keys. -/
def insertPath (m : OrderedMap QueryVar) (key : HashKey) :
    List HashKey → List UInt8 → OrderedMap QueryVar
  | [], val => m.store key (.string val)
  | k :: path, val =>
    m.store key (.array (insertPath (m.arrayAt key) k path val))

theorem elementArray_key (m : OrderedMap QueryVar) (index : List UInt8) :
    ∃ m', m.elementArray (some index) = some (symtableKey index,
        m.arrayAt (symtableKey index), m') ∧
      ∀ v, m'.store (symtableKey index) v = m.store (symtableKey index) v := by
  let stored := m.store (symtableKey index) (.array .empty)
  cases hfind : m.find (symtableKey index) with
  | none =>
    exact ⟨stored, by simp [OrderedMap.elementArray, OrderedMap.arrayAt, hfind, stored],
      fun v => m.store_store _ _ v⟩
  | some v =>
    cases v with
    | array table =>
      exact ⟨m, by simp [OrderedMap.elementArray, OrderedMap.arrayAt, hfind], fun v => rfl⟩
    | _ =>
      exact ⟨stored, by simp [OrderedMap.elementArray, OrderedMap.arrayAt, hfind, stored],
        fun v => m.store_store _ _ v⟩

theorem NestedKey.queryIndex (hdigit : ∀ c, isDigit c = true → isspace c = false)
    (hkey : NestedKey isspace key) (behind : List UInt8) :
    queryIndex isspace (queryKeyText key ++ byte ']' :: behind) =
      some (some (queryKeyText key), behind) :=
  queryIndex_key hkey.keyText.ne_nil
    (fun c hc h => hkey.keyText.bytes c hc (.inl h)) (hkey.not_blank hdigit)

/-- The brackets of a name lead to the place of its keys. -/
theorem registerIndex_path (hdigit : ∀ c, isDigit c = true → isspace c = false)
    {level : Nat} (first : Bool) (index val : List UInt8)
    {path : List HashKey} (hlevel : path.length < level) (hkey : NestedKey isspace key)
    (hpath : ∀ k ∈ path, NestedKey isspace k) (m : OrderedMap QueryVar) :
    registerIndex isspace val level first (some index)
        (queryKeyText key ++ byte ']' :: bracketName path) m =
      (false, insertPath m (symtableKey index) (key :: path) val) := by
  induction path generalizing level first index key m with
  | nil =>
    obtain ⟨level, rfl⟩ : ∃ j, level = j + 1 := ⟨level - 1, by omega⟩
    obtain ⟨m', helement, hstore⟩ := elementArray_key m index
    rw [registerIndex, hkey.queryIndex hdigit]
    simp only [helement, hstore]
    rw [if_neg (by simp [bracketName]), OrderedMap.plainVar, hkey.keyText.symtable]
    rfl
  | cons k path ih =>
    obtain ⟨level, rfl⟩ : ∃ j, level = j + 1 := ⟨level - 1, by omega⟩
    obtain ⟨m', helement, hstore⟩ := elementArray_key m index
    have hbehind : bracketName (k :: path) =
        byte '[' :: (queryKeyText k ++ byte ']' :: bracketName path) := by
      simp [bracketName]
    rw [length_cons] at hlevel
    have hshorter : path.length < level := by omega
    have hrest := ih false (queryKeyText key) hshorter (hpath k mem_cons_self)
      (fun k' hk' => hpath k' (mem_cons_of_mem k hk'))
    rw [registerIndex, hkey.queryIndex hdigit]
    simp only [helement, hstore]
    rw [if_pos (by simp [hbehind]), hbehind, tail_cons, hrest, hkey.keyText.symtable]
    rfl

theorem phpRegisterVariableEx_leaf (hdigit : ∀ c, isDigit c = true → settings.isspace c = false)
    (hactive : settings.activeSymbolTable = false) {leaf : QueryLeaf} (htop : TopKey leaf.top)
    (hpath : ∀ k ∈ leaf.path, NestedKey settings.isspace k)
    (hdepth : leaf.path.length ≤ settings.maxInputNestingLevel) (m : OrderedMap QueryVar) :
    phpRegisterVariableEx settings (queryKeyText leaf.top ++ bracketName leaf.path) leaf.val m =
      insertPath m leaf.top leaf.path leaf.val := by
  have hkey := htop.keyText
  generalize htext : queryKeyText leaf.top = text at *
  obtain ⟨c, rest, rfl⟩ := exists_cons_of_ne_nil (htext ▸ hkey.ne_nil)
  have hbytes : ∀ d ∈ c :: rest, ¬ isNameSyntax d := htext ▸ hkey.bytes
  have hsymtable : symtableKey (c :: rest) = leaf.top := htext ▸ hkey.symtable
  have hspace : c ≠ byte ' ' := fun h => hbytes c mem_cons_self (.inl h)
  have hhead : ((c :: rest) ++ bracketName leaf.path).takeWhile (· ≠ byte '[') = c :: rest := by
    rw [takeWhile_append_of_pos]
    · cases leaf.path with
      | nil | cons k path => simp [bracketName]
    · intro d hd
      simpa using fun h => hbytes d hd (.inr (.inr (.inl h)))
  have hmangle : (c :: rest).map (fun d =>
      if d = byte ' ' ∨ d = byte '.' then byte '_' else d) = c :: rest := by
    conv_rhs => rw [← List.map_id (c :: rest)]
    apply map_congr_left
    intro d hd
    rw [if_neg]
    · rfl
    · rintro (h | h)
      · exact hbytes d hd (.inl h)
      · exact hbytes d hd (.inr (.inl h))
  have hdrop : ((c :: rest) ++ bracketName leaf.path).dropWhile
      (· = byte ' ') = (c :: rest) ++ bracketName leaf.path := by
    rw [cons_append, dropWhile_cons_of_neg (by simpa using hspace)]
  simp only [phpRegisterVariableEx, hdrop, hhead, hmangle, hactive,
    Bool.false_eq_true, false_and, if_false, drop_left]
  rw [if_neg (cons_ne_nil c rest)]
  cases hp : leaf.path with
  | nil =>
    simp only [bracketName, flatMap_nil, OrderedMap.plainVar, hsymtable]
    rfl
  | cons k path =>
    rw [hp] at hpath hdepth
    have hregister := registerIndex_path hdigit true (c :: rest) leaf.val hdepth
      (hpath k mem_cons_self)
      (fun k' hk' => hpath k' (mem_cons_of_mem k hk')) m
    have hname : bracketName (k :: path) =
        byte '[' :: (queryKeyText k ++ byte ']' :: bracketName path) := by
      simp [bracketName]
    simp only [hname, hregister, hsymtable]

/-- Variables with the separator between them. -/
def queryText : List (List UInt8) → List UInt8
  | [] => []
  | var :: vars => var ++ vars.flatMap ([byte '&'] ++ ·)

theorem phpStrtok_queryText {var : List UInt8} (hne : var ≠ [])
    (hplain : byte '&' ∉ var) (vars : List (List UInt8)) :
    phpStrtok [byte '&'] (queryText (var :: vars)) = some (var, queryText vars) := by
  obtain ⟨c, rest, rfl⟩ := exists_cons_of_ne_nil hne
  have hc : c ≠ byte '&' := fun h => hplain (h ▸ mem_cons_self)
  have hdrop : (queryText ((c :: rest) :: vars)).dropWhile (· ∈ [byte '&']) =
      queryText ((c :: rest) :: vars) := by
    rw [queryText, cons_append, dropWhile_cons_of_neg (by simpa using hc)]
  have htoken : (queryText ((c :: rest) :: vars)).takeWhile (· ∉ [byte '&']) = c :: rest := by
    rw [queryText, takeWhile_append_of_pos]
    · cases vars <;> simp
    · intro d hd
      simp only [mem_singleton, decide_eq_true_eq]
      exact fun h => hplain (h ▸ hd)
  simp only [phpStrtok, hdrop, htoken]
  cases vars with
  | nil | cons var vars => simp [queryText]

/-- What the reader needs of a leaf. -/
def LeafFits (settings : InputSettings) (leaf : QueryLeaf) : Prop :=
  TopKey leaf.top ∧ (∀ k ∈ leaf.path, NestedKey settings.isspace k) ∧
    leaf.path.length ≤ settings.maxInputNestingLevel

theorem mem_bracketName {path : List HashKey} (hpath : ∀ k ∈ path, NestedKey isspace k) :
    (0 : UInt8) ∉ bracketName path := by
  intro hmem
  obtain ⟨key, hkey, hmem⟩ := mem_flatMap.mp hmem
  have hbytes := (hpath key hkey).keyText.bytes
  simp only [mem_append, mem_singleton] at hmem
  rcases hmem with (h | h) | h
  · cases h
  · exact hbytes 0 h (.inr rfl)
  · cases h

/-- A variable of the query string is read back as its leaf. -/
theorem leafText_reads (enc : QueryEncType)
    {leaf : QueryLeaf} (h : LeafFits settings leaf) : let var := leafText enc [] [] leaf
    let name := var.takeWhile (· ≠ byte '=')
    (phpUrlDecode name).takeWhile (· ≠ 0) = queryKeyText leaf.top ++ bracketName leaf.path ∧
      phpUrlDecode (var.drop (name.length + 1)) = leaf.val ∧
      var ≠ [] ∧ ∀ b ∈ var, b ≠ byte '&' ∧ b ≠ 0 := by
  have hname := (urlText_encodeKey enc leaf.top).append (urlText_bracketText enc leaf.path)
  have hval := enc.urlText_encode leaf.val
  have hvar : leafText enc [] [] leaf = (enc.encodeKey [] leaf.top ++ bracketText enc leaf.path) ++
        byte '=' :: enc.encode leaf.val := by
    simp [leafText]
  generalize enc.encodeKey [] leaf.top ++ bracketText enc leaf.path = name at hname hvar
  have htake : (leafText enc [] [] leaf).takeWhile (· ≠ byte '=') = name := by
    rw [hvar, takeWhile_append_of_pos]
    · simp
    · intro b hb
      simpa using fun h => hname.plain b hb (.inr (.inl h))
  refine ⟨?_, ?_, ?_, ?_⟩
  · rw [htake, hname.decode_all, takeWhile_eq_self_iff]
    intro b hb
    have hb' : b ≠ 0 := by
      rintro rfl
      rcases mem_append.mp hb with hb | hb
      · exact h.1.keyText.bytes 0 hb (.inr (.inr (.inr rfl)))
      · exact mem_bracketName h.2.1 hb
    simpa using hb'
  · rw [htake, hvar]
    simpa using hval.decode_all
  · simp [hvar]
  · intro b hb
    rw [hvar, mem_append, mem_cons] at hb
    rcases hb with hb | rfl | hb
    · exact ⟨fun h => hname.plain b hb (.inl h), fun h => hname.plain b hb (.inr (.inr h))⟩
    · decide
    · exact ⟨fun h => hval.plain b hb (.inl h), fun h => hval.plain b hb (.inr (.inr h))⟩

theorem treatDataLoop_leaves (enc : QueryEncType)
    (hdigit : ∀ c, isDigit c = true → settings.isspace c = false)
    (hactive : settings.activeSymbolTable = false)
    (hsep : settings.argSeparator = [byte '&']) {leaves : List QueryLeaf}
    (hfits : ∀ leaf ∈ leaves, LeafFits settings leaf) {fuel count : Nat}
    (hfuel : leaves.length < fuel) (hcount : count + leaves.length ≤ settings.maxInputVars)
    (m : OrderedMap QueryVar) : treatDataLoop settings fuel count
        (queryText (leaves.map (leafText enc [] []))) m =
      leaves.foldl (fun m leaf => insertPath m leaf.top leaf.path leaf.val) m := by
  induction leaves generalizing fuel count m with
  | nil =>
    obtain ⟨fuel, rfl⟩ : ∃ j, fuel = j + 1 := ⟨fuel - 1, by omega⟩
    rw [treatDataLoop]
    simp [queryText, phpStrtok]
  | cons leaf leaves ih =>
    rw [length_cons] at hfuel hcount
    obtain ⟨fuel, rfl⟩ : ∃ j, fuel = j + 1 := ⟨fuel - 1, by omega⟩
    have hleaf := hfits leaf mem_cons_self
    obtain ⟨hname, hval, hne, hplain⟩ := leafText_reads enc hleaf
    rw [treatDataLoop, hsep, map_cons, phpStrtok_queryText hne (fun h => (hplain _ h).1 rfl)]
    simp only [hname, hval]
    rw [if_neg (by omega),
      phpRegisterVariableEx_leaf hdigit hactive hleaf.1 hleaf.2.1 hleaf.2.2,
      ih (fun l hl => hfits l (mem_cons_of_mem leaf hl)) (by omega) (by omega), foldl_cons]

/-- Leaves under one key are put into the array under that key. -/
theorem foldl_insertPath_nested (key : HashKey) {leaves : List QueryLeaf}
    (hne : leaves ≠ []) (m : OrderedMap QueryVar) :
    (leaves.map fun leaf => (⟨key, leaf.top :: leaf.path, leaf.val⟩ : QueryLeaf)).foldl
        (fun m leaf => insertPath m leaf.top leaf.path leaf.val) m =
      m.store key (.array (leaves.foldl (fun m leaf => insertPath m leaf.top leaf.path leaf.val)
        (m.arrayAt key))) := by
  induction leaves generalizing m with
  | nil => exact absurd rfl hne
  | cons leaf leaves ih =>
    have hat : ∀ table, (m.store key (.array table)).arrayAt key = table := by
      simp [OrderedMap.arrayAt, OrderedMap.find_store_self]
    rw [map_cons, foldl_cons, foldl_cons, insertPath]
    by_cases hnil : leaves = []
    · subst hnil
      rfl
    · rw [ih hnil, OrderedMap.store_store, hat]

/-- The leaves of an array, put into another one that has none of its keys,
build the array up again behind what is there. -/
theorem foldl_insertPath_leaves (h : Queryable isspace P items)
    (m : OrderedMap QueryVar) (hnew : ∀ x ∈ items, x.1 ∉ m.keys) :
    ∃ items', ((queryLeaves items).foldl
        (fun m leaf => insertPath m leaf.top leaf.path leaf.val) m).items =
        m.items ++ items' ∧ SameVars items items' := by
  -- One step of the induction: the rest goes behind the new item.
  have hstep : ∀ {key : HashKey} {v : QueryVar} {rest : List (HashKey × QueryVar)}
      {m : OrderedMap QueryVar}, key ∉ rest.map Prod.fst →
      (∀ x ∈ (key, v) :: rest, x.1 ∉ m.keys) →
      ∀ w, ∀ x ∈ rest, x.1 ∉ (m.store key w).keys := by
    intro key v rest m hkey hnew w x hx hmem
    have hfresh := hnew (key, v) mem_cons_self
    rw [OrderedMap.keys, OrderedMap.items_store_of_notMem hfresh, map_append, mem_append] at hmem
    rcases hmem with hmem | hmem
    · exact hnew x (mem_cons_of_mem _ hx) hmem
    · have heq : x.1 = key := by simpa using hmem
      exact hkey (heq ▸ List.mem_map_of_mem hx)
  induction h generalizing m with
  | nil =>
    rw [queryLeaves]
    exact ⟨[], (append_nil _).symm, .nil⟩
  | @string P key s items hP hkey hitems ih =>
    obtain ⟨items', heq, hsame⟩ := ih (m.store key (.string s)) (hstep hkey hnew _)
    refine ⟨(key, .string s) :: items', ?_, .string hsame⟩
    rw [queryLeaves_string, foldl_cons, insertPath, heq,
      OrderedMap.items_store_of_notMem (hnew _ mem_cons_self),
      append_assoc]
    rfl
  | @array P key table items hP hkey hsub hqueryable hitems ihsub ih =>
    have hfresh : key ∉ m.keys := hnew _ mem_cons_self
    have hat : m.arrayAt key = .empty := by
      rw [OrderedMap.arrayAt, OrderedMap.find_of_notMem hfresh]
    obtain ⟨sub, hsubItems, hsubSame⟩ := ihsub .empty (by simp [OrderedMap.keys, OrderedMap.empty])
    obtain ⟨items', heq, hsame⟩ := ih (m.store key (.array ((queryLeaves table.items).foldl
        (fun m leaf => insertPath m leaf.top leaf.path leaf.val) .empty)))
      (hstep hkey hnew _)
    rw [queryLeaves_array, foldl_append, foldl_insertPath_nested key
      (hqueryable.leaves_ne_nil hsub), hat, heq,
      OrderedMap.items_store_of_notMem hfresh]
    refine ⟨_ :: items', append_assoc _ _ _, .array ?_ hsame⟩
    rw [hsubItems]
    exact hsubSame

theorem length_le_queryText {vars : List (List UInt8)} (h : ∀ var ∈ vars, var ≠ []) :
    vars.length ≤ (queryText vars).length := by
  cases vars with
  | nil => exact Nat.zero_le _
  | cons var vars =>
    have hvar := length_pos_iff.mpr (h var mem_cons_self)
    have hrest : vars.length ≤ (vars.flatMap ([byte '&'] ++ ·)).length := by
      induction vars with
      | nil => exact Nat.zero_le _
      | cons v vars ih =>
        have hle := ih (by
          intro w hw
          rcases mem_cons.mp hw with rfl | hw
          · exact h w mem_cons_self
          · exact h w (mem_cons_of_mem _ (mem_cons_of_mem _ hw)))
        rw [flatMap_cons, length_append, length_append, length_cons]
        simp only [length_singleton]
        omega
    rw [queryText, length_append, length_cons]
    omega

theorem mem_queryText {vars : List (List UInt8)} {b : UInt8}
    (h : b ∈ queryText vars) : b = byte '&' ∨ ∃ var ∈ vars, b ∈ var := by
  cases vars with
  | nil => simp [queryText] at h
  | cons var vars =>
    rw [queryText, mem_append, mem_flatMap] at h
    rcases h with h | ⟨v, hv, h⟩
    · exact .inr ⟨var, mem_cons_self, h⟩
    · rcases mem_append.mp h with h | h
      · exact .inl (by simpa using h)
      · exact .inr ⟨v, mem_cons_of_mem var hv, h⟩

/-- `a]b=x&-5[0]=&-5[ k]=y` before it is encoded. -/
def sampleVars : OrderedMap QueryVar where
  items := [(.string (bytesOf "a]b" ++ [0]), .string (bytesOf "x")),
    (.long (ulongMod - 5), .array ⟨[(.long 0, .string []),
      (.string (bytesOf " k" ++ [0]), .string (bytesOf "y"))], none, 1⟩)]
  cur := none
  nextFree := 0

/-- The settings of php.ini-development, in the C locale. -/
def sampleSettings : InputSettings where
  isspace := fun c => c = 32 || (9 ≤ c && c ≤ 13)
  argSeparator := [byte '&']
  maxInputVars := 1000
  maxInputNestingLevel := 64
  activeSymbolTable := false

end PhpEngine
