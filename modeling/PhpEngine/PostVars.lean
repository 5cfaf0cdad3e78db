/-
The variables of an application/x-www-form-urlencoded body
(main/php_variables.c).  The body comes in chunks; what stands behind the last
`&` waits in the buffer for the next chunk.
-/
import PhpEngine.Memory
import PhpEngine.StreamLine
import PhpEngine.UrlCode

namespace PhpEngine

open List

variable {var : PostVarData} {text tail : List UInt8}

/-- `post_var_data_t`: the memory and the length of `str`, and the cursors into
it. -/
structure PostVarData where
  str : Nat → UInt8
  len : Nat
  ptr : Nat
  stop : Nat
  cnt : Nat

/-- `php_url_decode` in place: a zero stands behind what was decoded. -/
def urlDecodeAt (buf : Nat → UInt8) (p len : Nat) : Nat → UInt8 :=
  Memory.store buf p (phpUrlDecode (Memory.slice buf p len) ++ [0])

namespace PostVarData

/-- The end of the next variable; the end of the buffer is one only at the end
of the body. -/
def vsep (var : PostVarData) (eof : Bool) : Option Nat :=
  match PhpStream.memchr (byte '&') (Memory.slice var.str var.ptr (var.stop - var.ptr)) with
  | some n => some (var.ptr + n)
  | none => if eof then some var.stop else none

/-- The key of the variable up to `vsep` with its end marked: the memory, the
length of the key, and the place and the length of the value. -/
def ksep (var : PostVarData) (vsep : Nat) : (Nat → UInt8) × Nat × Nat × Nat :=
  match PhpStream.memchr (byte '=') (Memory.slice var.str var.ptr (vsep - var.ptr)) with
  | some n => (Memory.store var.str (var.ptr + n) [0], n, var.ptr + n + 1, vsep - (var.ptr + n + 1))
  | none => (var.str, vsep - var.ptr, vsep, 0)

/-- `add_post_var`: the name and the value that are registered.  The name is a
C string; a zero stands behind the decoded key. -/
def addPostVar (var : PostVarData) (eof : Bool) :
    Option ((List UInt8 × List UInt8) × PostVarData) :=
  if var.stop ≤ var.ptr then none
  else
    match var.vsep eof with
    | none => none
    | some vsep =>
      let (str, klen, ksep, vlen) := var.ksep vsep
      let str := urlDecodeAt str var.ptr klen
      let name := (Memory.slice str var.ptr (klen + 1)).takeWhile (· ≠ 0)
      let val := phpUrlDecode (Memory.slice str ksep vlen)
      some ((name, val), { var with
        str := str
        ptr := vsep + if vsep ≠ var.stop then 1 else 0 })

/-- The loop of `add_post_vars`: whether the limit was kept, and what is
registered. -/
def addPostVarsLoop (maxVars : Nat) (eof : Bool) :
    Nat → PostVarData → List (List UInt8 × List UInt8) →
      Bool × PostVarData × List (List UInt8 × List UInt8)
  | 0, vars, arr => (true, vars, arr)
  | fuel + 1, vars, arr =>
    match vars.addPostVar eof with
    | none => (true, vars, arr)
    | some (pair, vars) =>
      let vars := { vars with cnt := vars.cnt + 1 }
      if maxVars < vars.cnt then (false, vars, arr ++ [pair])
      else addPostVarsLoop maxVars eof fuel vars (arr ++ [pair])

/-- `add_post_vars`; every variable takes at least one byte. -/
def addPostVars (maxVars : Nat) (eof : Bool) (vars : PostVarData)
    (arr : List (List UInt8 × List UInt8)) : Bool × PostVarData × List (List UInt8 × List UInt8) :=
  match addPostVarsLoop maxVars eof (vars.len + 1) { vars with ptr := 0, stop := vars.len } arr with
  | (false, vars, arr) => (false, vars, arr)
  | (true, vars, arr) =>
    if eof then (true, vars, arr)
    else
      (true, { vars with
        str := Memory.store vars.str 0 (Memory.slice vars.str vars.ptr (vars.stop - vars.ptr))
        len := vars.stop - vars.ptr }, arr)

/-- `smart_str_appendl` -/
def appendl (vars : PostVarData) (chunk : List UInt8) : PostVarData :=
  { vars with
    str := Memory.store vars.str vars.len chunk
    len := vars.len + chunk.length }

/-- The chunks of `php_std_post_handler`, one after the other. -/
def postChunks (maxVars : Nat) : List (List UInt8) → PostVarData →
    List (List UInt8 × List UInt8) → List (List UInt8 × List UInt8)
  | [], vars, arr => (vars.addPostVars maxVars true arr).2.2
  | chunk :: chunks, vars, arr =>
    match (vars.appendl chunk).addPostVars maxVars false arr with
    | (false, _, arr) => arr
    | (true, vars, arr) => postChunks maxVars chunks vars arr

/-- `php_std_post_handler`: the pairs that are registered. -/
def phpStdPostHandler (maxVars : Nat) (chunks : List (List UInt8)) :
    List (List UInt8 × List UInt8) :=
  postChunks maxVars chunks ⟨fun _ => 0, 0, 0, 0, 0⟩ []

end PostVarData

/-- The name and the value of a piece of the body. -/
def postPair (piece : List UInt8) : List UInt8 × List UInt8 :=
  ((phpUrlDecode (piece.takeWhile (· ≠ byte '='))).takeWhile (· ≠ 0),
    phpUrlDecode ((piece.dropWhile (· ≠ byte '=')).drop 1))

/-- The pieces of a body, without an empty one at its end. -/
def postPieces (body : List UInt8) : List (List UInt8) :=
  let pieces := body.splitOn (byte '&')
  if pieces.getLast? = some [] then pieces.dropLast else pieces

namespace PostVarData

/-- `text` is what is still to be read of the buffer. -/
structure At (var : PostVarData) (text : List UInt8) : Prop where
  text_eq : Memory.slice var.str var.ptr text.length = text
  stop_eq : var.stop = var.ptr + text.length

section Piece

variable {buf : Nat → UInt8} {p : Nat}

theorem slice_store_append {items : List UInt8} {n : Nat} (h : items.length ≤ n) :
    Memory.slice (Memory.store buf p items) p n = items ++
      Memory.slice buf (p + items.length) (n - items.length) := by
  obtain ⟨m, rfl⟩ := Nat.exists_eq_add_of_le h
  rw [Memory.slice_append, Memory.slice_store, Nat.add_sub_cancel_left,
    Memory.slice_store_behind le_rfl]

theorem takeWhile_zero (name tail : List UInt8) :
    (name ++ 0 :: tail).takeWhile (· ≠ 0) = name.takeWhile (· ≠ 0) := by
  induction name with
  | nil => rfl
  | cons b name ih =>
    rw [cons_append, takeWhile_cons, takeWhile_cons, ih]

theorem name_urlDecodeAt (buf : Nat → UInt8) (p len : Nat) :
    (Memory.slice (urlDecodeAt buf p len) p (len + 1)).takeWhile (· ≠ 0) =
      (phpUrlDecode (Memory.slice buf p len)).takeWhile (· ≠ 0) := by
  have hle := length_phpUrlDecode_le (Memory.slice buf p len)
  rw [urlDecodeAt, slice_store_append (by simpa using hle), append_assoc,
    singleton_append, takeWhile_zero]

theorem urlDecodeAt_of_lt {len i : Nat} (h : p + len < i) : urlDecodeAt buf p len i = buf i := by
  have hle := length_phpUrlDecode_le (Memory.slice buf p len)
  rw [Memory.length_slice] at hle
  apply Memory.store_of_ge
  rw [length_append, length_singleton]
  omega

theorem takeWhile_ne {c : UInt8} {key : List UInt8} (hkey : c ∉ key) (val : List UInt8) :
    (key ++ c :: val).takeWhile (· ≠ c) = key ∧ (key ++ c :: val).dropWhile (· ≠ c) = c :: val := by
  induction key with
  | nil => simp
  | cons b key ih =>
    rw [mem_cons, not_or] at hkey
    obtain ⟨htake, hdrop⟩ := ih hkey.2
    rw [cons_append, takeWhile_cons, dropWhile_cons, htake, hdrop]
    simp [Ne.symm hkey.1]

theorem takeWhile_all {c : UInt8} {key : List UInt8} (hkey : c ∉ key) :
    key.takeWhile (· ≠ c) = key ∧ key.dropWhile (· ≠ c) = [] := by
  induction key with
  | nil => exact ⟨rfl, rfl⟩
  | cons b key ih =>
    rw [mem_cons, not_or] at hkey
    obtain ⟨htake, hdrop⟩ := ih hkey.2
    rw [takeWhile_cons, dropWhile_cons, htake, hdrop]
    simp [Ne.symm hkey.1]

end Piece

section Step

variable {var : PostVarData} {piece rest : List UInt8}

/-- The buffer after a piece was taken out of it. -/
structure Taken (var : PostVarData) (vsep : Nat) (piece : List UInt8)
    (str : Nat → UInt8) (pair : List UInt8 × List UInt8) : Prop where
  pair_eq : pair = postPair piece
  behind : ∀ i, vsep < i → str i = var.str i

theorem taken_piece (hpiece : Memory.slice var.str var.ptr piece.length = piece) :
    let (str, klen, ksep, vlen) := var.ksep (var.ptr + piece.length)
    let str := urlDecodeAt str var.ptr klen
    Taken var (var.ptr + piece.length) piece str
      ((Memory.slice str var.ptr (klen + 1)).takeWhile (· ≠ 0),
        phpUrlDecode (Memory.slice str ksep vlen)) := by
  rw [ksep, Nat.add_sub_cancel_left, hpiece]
  by_cases hmem : byte '=' ∈ piece
  · obtain ⟨key, val, rfl, hkey⟩ := eq_append_cons_of_mem hmem
    obtain ⟨htake, hdrop⟩ := takeWhile_ne hkey val
    rw [PhpStream.memchr_append_cons hkey]
    obtain ⟨hslice, hrest⟩ := Memory.slice_append_eq hpiece
    have hval : Memory.slice var.str (var.ptr + key.length + 1) val.length = val := by
      have hcons : Memory.slice var.str (var.ptr + key.length)
          ([byte '='] ++ val).length = [byte '='] ++ val := hrest
      exact (Memory.slice_append_eq hcons).2
    have hvlen : var.ptr + (key ++ byte '=' :: val).length -
        (var.ptr + key.length + 1) = val.length := by
      rw [length_append, length_cons]
      omega
    have hother (i : Nat) (hi : var.ptr + key.length < i) :
        urlDecodeAt (Memory.store var.str (var.ptr + key.length) [0]) var.ptr
          key.length i = var.str i := by
      rw [urlDecodeAt_of_lt hi]
      apply Memory.store_of_ge
      rw [length_singleton]
      omega
    constructor
    · have hbefore : Memory.slice (Memory.store var.str (var.ptr + key.length) [0]) var.ptr
            key.length = key := by
        rw [Memory.slice_store_before le_rfl, hslice]
      have hbehind : Memory.slice (urlDecodeAt (Memory.store var.str (var.ptr + key.length) [0])
            var.ptr key.length) (var.ptr + key.length + 1) val.length = val := by
        refine Eq.trans (Memory.slice_congr fun i hi _ => ?_) hval
        exact hother i (by omega)
      rw [name_urlDecodeAt, hbefore, hvlen, hbehind, postPair, htake, hdrop]
      rfl
    · intro i hi
      apply hother
      rw [length_append] at hi
      omega
  · obtain ⟨htake, hdrop⟩ := takeWhile_all hmem
    rw [PhpStream.memchr_of_not_mem hmem]
    constructor
    · rw [name_urlDecodeAt, hpiece, postPair, htake, hdrop]
      rfl
    · intro i hi
      exact urlDecodeAt_of_lt hi

/-- A piece in front of a `&` is registered, and the next one comes. -/
theorem addPostVar_piece (hamp : byte '&' ∉ piece)
    (hat : At var (piece ++ byte '&' :: rest)) (eof : Bool) :
    ∃ var', var.addPostVar eof = some (postPair piece, var') ∧ At var' rest ∧
      var'.cnt = var.cnt ∧ var'.stop = var.stop := by
  have hlen : var.stop = var.ptr + piece.length + 1 + rest.length := by
    rw [hat.stop_eq, length_append, length_cons]
    omega
  have hvsep : var.vsep eof = some (var.ptr + piece.length) := by
    have hslice : Memory.slice var.str var.ptr (var.stop - var.ptr) =
        piece ++ byte '&' :: rest := by
      rw [hat.stop_eq, Nat.add_sub_cancel_left, hat.text_eq]
    rw [vsep, hslice, PhpStream.memchr_append_cons hamp]
  obtain ⟨hpiece, hrest⟩ := Memory.slice_append_eq hat.text_eq
  have hrest' : Memory.slice var.str (var.ptr + piece.length + 1) rest.length = rest := by
    have hcons : Memory.slice var.str (var.ptr + piece.length)
        ([byte '&'] ++ rest).length = [byte '&'] ++ rest := hrest
    exact (Memory.slice_append_eq hcons).2
  have htaken := taken_piece hpiece
  rw [addPostVar, if_neg (by omega), hvsep]
  dsimp only at htaken ⊢
  rw [if_pos (by omega), htaken.pair_eq]
  refine ⟨_, rfl, ⟨?_, hlen⟩, rfl, rfl⟩
  refine Eq.trans (Memory.slice_congr fun i hi _ => ?_) hrest'
  exact htaken.behind i (Nat.lt_of_succ_le hi)

theorem addPostVar_last (hamp : byte '&' ∉ piece) (hne : piece ≠ []) (hat : At var piece) :
    ∃ var', var.addPostVar true = some (postPair piece, var') ∧ At var' [] ∧
      var'.cnt = var.cnt := by
  have hpos := length_pos_iff.mpr hne
  have hstop := hat.stop_eq
  have hvsep : var.vsep true = some (var.ptr + piece.length) := by
    have hslice : Memory.slice var.str var.ptr (var.stop - var.ptr) = piece := by
      rw [hstop, Nat.add_sub_cancel_left, hat.text_eq]
    rw [vsep, hslice, PhpStream.memchr_of_not_mem hamp, ← hstop]
    rfl
  have htaken := taken_piece hat.text_eq
  rw [addPostVar, if_neg (by omega), hvsep]
  dsimp only at htaken ⊢
  rw [if_neg (not_not.mpr hstop.symm), htaken.pair_eq]
  exact ⟨_, rfl, ⟨rfl, hstop⟩, rfl⟩

/-- A piece without a `&` behind it waits for the end of the body. -/
theorem addPostVar_wait (hamp : byte '&' ∉ piece) (hat : At var piece) :
    var.addPostVar false = none := by
  have hslice : Memory.slice var.str var.ptr (var.stop - var.ptr) = piece := by
    rw [hat.stop_eq, Nat.add_sub_cancel_left, hat.text_eq]
  have hvsep : var.vsep false = none := by
    rw [vsep, hslice, PhpStream.memchr_of_not_mem hamp]
    rfl
  rw [addPostVar, hvsep]
  split <;> rfl

theorem addPostVar_nil (hat : At var []) (eof : Bool) : var.addPostVar eof = none := by
  have hstop : var.stop ≤ var.ptr := le_of_eq hat.stop_eq
  rw [addPostVar, if_pos hstop]

end Step

section Pieces

variable {piece rest : List UInt8}

/-- What is to be registered of a text. -/
def postPairs (body : List UInt8) : List (List UInt8 × List UInt8) :=
  (postPieces body).map postPair

/-- How many pieces a text has. -/
def pieceCount (body : List UInt8) : Nat :=
  (body.splitOn (byte '&')).length

theorem postPairs_cons (hamp : byte '&' ∉ piece) (rest : List UInt8) :
    postPairs (piece ++ byte '&' :: rest) = postPair piece :: postPairs rest := by
  have hne := splitOn_ne_nil (byte '&') rest
  rw [postPairs, postPieces, splitOn_append_cons_self_of_not_mem hamp, postPairs, postPieces]
  obtain ⟨p, ps, hps⟩ := exists_cons_of_ne_nil hne
  rw [hps, getLast?_cons_cons, dropLast_cons_cons]
  split
  · rfl
  · rfl

theorem pieceCount_cons (hamp : byte '&' ∉ piece) (rest : List UInt8) :
    pieceCount (piece ++ byte '&' :: rest) = pieceCount rest + 1 := by
  rw [pieceCount, splitOn_append_cons_self_of_not_mem hamp, length_cons, pieceCount]

theorem postPairs_last (hamp : byte '&' ∉ piece) (hne : piece ≠ []) :
    postPairs piece = [postPair piece] := by
  rw [postPairs, postPieces, splitOn_eq_singleton hamp]
  simp [hne]

theorem postPairs_nil : postPairs [] = [] :=
  rfl

theorem pieceCount_pos (body : List UInt8) : 0 < pieceCount body :=
  length_pos_iff.mpr (splitOn_ne_nil (byte '&') body)

end Pieces

section Run

variable {maxVars : Nat}

/-- A text up to its last `&`, if it has one. -/
theorem text_cases (text : List UInt8) :
    byte '&' ∉ text ∨ ∃ piece rest, text = piece ++ byte '&' :: rest ∧ byte '&' ∉ piece := by
  by_cases hmem : byte '&' ∈ text
  · obtain ⟨piece, rest, heq, hpiece⟩ := eq_append_cons_of_mem hmem
    exact .inr ⟨piece, rest, heq, hpiece⟩
  · exact .inl hmem

/-- Between two chunks what is registered and what is still to be registered
are together always the same. -/
theorem addPostVarsLoop_wait (fuel : Nat) (hat : At var text) (more : List UInt8)
    (hmax : var.cnt + pieceCount (text ++ more) ≤ maxVars)
    (hfuel : text.length < fuel) (arr : List (List UInt8 × List UInt8)) : ∃ var' arr' tail,
      addPostVarsLoop maxVars false fuel var arr = (true, var', arr') ∧
      At var' tail ∧ arr' ++ postPairs (tail ++ more) = arr ++ postPairs (text ++ more) ∧
      var'.cnt + pieceCount (tail ++ more) ≤ maxVars := by
  induction fuel generalizing var text arr with
  | zero => cases hfuel
  | succ fuel ih =>
    rcases text_cases text with hamp | ⟨piece, rest, rfl, hamp⟩
    · refine ⟨var, arr, text, ?_, hat, rfl, hmax⟩
      rw [addPostVarsLoop, addPostVar_wait hamp hat]
    · obtain ⟨var', hadd, hat', hcnt, -⟩ := addPostVar_piece hamp hat false
      have hassoc : piece ++ byte '&' :: rest ++ more = piece ++ byte '&' :: (rest ++ more) := by
        rw [append_assoc, cons_append]
      rw [hassoc, pieceCount_cons hamp] at hmax
      have hlimit : ¬ maxVars < var'.cnt + 1 := by
        omega
      rw [addPostVarsLoop, hadd]
      dsimp only
      rw [if_neg hlimit, hassoc, postPairs_cons hamp]
      have hless : rest.length < fuel := by
        rw [length_append, length_cons] at hfuel
        omega
      have hnext : At { var' with cnt := var'.cnt + 1 } rest :=
        ⟨hat'.text_eq, hat'.stop_eq⟩
      obtain ⟨var'', arr'', tail, hloop, htail, hpairs, hcount⟩ :=
        ih hnext (by dsimp only; omega) hless (arr ++ [postPair piece])
      refine ⟨var'', arr'', tail, hloop, htail, ?_, hcount⟩
      rw [hpairs, append_assoc]
      rfl

theorem addPostVarsLoop_end (fuel : Nat) (hat : At var text)
    (hmax : var.cnt + pieceCount text ≤ maxVars) (hfuel : text.length < fuel)
    (arr : List (List UInt8 × List UInt8)) : ∃ var', addPostVarsLoop maxVars true fuel var arr =
      (true, var', arr ++ postPairs text) := by
  induction fuel generalizing var text arr with
  | zero => cases hfuel
  | succ fuel ih =>
    have hpos := pieceCount_pos text
    rcases text_cases text with hamp | ⟨piece, rest, rfl, hamp⟩
    · by_cases hne : text = []
      · subst hne
        refine ⟨var, ?_⟩
        rw [addPostVarsLoop, addPostVar_nil hat, postPairs_nil, append_nil]
      · obtain ⟨var', hadd, hat', hcnt⟩ := addPostVar_last hamp hne hat
        have hlimit : ¬ maxVars < var'.cnt + 1 := by omega
        have hnext : At { var' with cnt := var'.cnt + 1 } [] :=
          ⟨hat'.text_eq, hat'.stop_eq⟩
        rw [addPostVarsLoop, hadd]
        dsimp only
        rw [if_neg hlimit, postPairs_last hamp hne]
        refine ⟨{ var' with cnt := var'.cnt + 1 }, ?_⟩
        cases fuel with
        | zero => rfl
        | succ fuel => rw [addPostVarsLoop, addPostVar_nil hnext]
    · obtain ⟨var', hadd, hat', hcnt, -⟩ := addPostVar_piece hamp hat true
      rw [pieceCount_cons hamp] at hmax
      have hlimit : ¬ maxVars < var'.cnt + 1 := by omega
      rw [addPostVarsLoop, hadd]
      dsimp only
      rw [if_neg hlimit, postPairs_cons hamp]
      have hless : rest.length < fuel := by
        rw [length_append, length_cons] at hfuel
        omega
      have hnext : At { var' with cnt := var'.cnt + 1 } rest :=
        ⟨hat'.text_eq, hat'.stop_eq⟩
      obtain ⟨var'', hloop⟩ :=
        ih hnext (by dsimp only; omega) hless (arr ++ [postPair piece])
      refine ⟨var'', hloop.trans ?_⟩
      rw [append_assoc]
      rfl

/-- The buffer between two chunks. -/
structure Holding (var : PostVarData) (tail : List UInt8) : Prop where
  tail_eq : Memory.slice var.str 0 tail.length = tail
  len_eq : var.len = tail.length

theorem Holding.appendl
    (h : Holding var tail) (chunk : List UInt8) : Holding (var.appendl chunk) (tail ++ chunk) := by
  constructor
  · rw [length_append, Memory.slice_append, PostVarData.appendl, h.len_eq,
      zero_add, Memory.slice_store,
      Memory.slice_store_before (le_of_eq (zero_add _)), h.tail_eq]
  · rw [PostVarData.appendl, length_append, h.len_eq]

theorem Holding.at (h : Holding var tail) : At { var with ptr := 0, stop := var.len } tail where
  text_eq := h.tail_eq
  stop_eq := h.len_eq.trans (Nat.zero_add _).symm

theorem addPostVars_wait (h : Holding var text) (more : List UInt8)
    (hmax : var.cnt + pieceCount (text ++ more) ≤ maxVars) (arr : List (List UInt8 × List UInt8)) :
    ∃ var' arr' tail, var.addPostVars maxVars false arr = (true, var', arr') ∧
      Holding var' tail ∧ arr' ++ postPairs (tail ++ more) = arr ++ postPairs (text ++ more) ∧
      var'.cnt + pieceCount (tail ++ more) ≤ maxVars := by
  obtain ⟨var', arr', tail, hloop, hat, hpairs, hcount⟩ :=
    addPostVarsLoop_wait (var.len + 1) h.at more hmax
      (Nat.lt_succ_of_le (le_of_eq h.len_eq.symm)) arr
  have hlen : var'.stop - var'.ptr = tail.length := by
    rw [hat.stop_eq, Nat.add_sub_cancel_left]
  refine ⟨{ var' with
    str := Memory.store var'.str 0 (Memory.slice var'.str var'.ptr (var'.stop - var'.ptr))
    len := var'.stop - var'.ptr }, arr', tail, ?_, ⟨?_, hlen⟩, hpairs, hcount⟩
  · rw [addPostVars, hloop]
    rfl
  · dsimp only
    rw [hlen, hat.text_eq, Memory.slice_store]

theorem postChunks_eq (chunks : List (List UInt8)) (h : Holding var tail)
    (hmax : var.cnt + pieceCount (tail ++ chunks.flatten) ≤ maxVars)
    (arr : List (List UInt8 × List UInt8)) : postChunks maxVars chunks var arr =
      arr ++ postPairs (tail ++ chunks.flatten) := by
  induction chunks generalizing var tail arr with
  | nil =>
    rw [flatten_nil, append_nil] at hmax ⊢
    obtain ⟨var', hloop⟩ := addPostVarsLoop_end (var.len + 1) h.at hmax
      (Nat.lt_succ_of_le (le_of_eq h.len_eq.symm)) arr
    rw [postChunks, addPostVars, hloop]
    rfl
  | cons chunk chunks ih =>
    rw [flatten_cons, ← append_assoc] at hmax ⊢
    obtain ⟨var', arr', tail', hadd, htail, hpairs, hcount⟩ :=
      addPostVars_wait (h.appendl chunk) chunks.flatten hmax arr
    rw [postChunks, hadd]
    dsimp only
    rw [ih htail hcount arr', hpairs]

/-- However a body is cut into chunks, what is registered are its pieces but an
empty one at the end, each split at its first `=` and decoded. -/
theorem phpStdPostHandler_eq (chunks : List (List UInt8))
    (hmax : (chunks.flatten.splitOn (byte '&')).length ≤ maxVars) :
    phpStdPostHandler maxVars chunks = (postPieces chunks.flatten).map postPair := by
  have hstart : Holding ⟨fun _ => 0, 0, 0, 0, 0⟩ [] := ⟨rfl, rfl⟩
  have hcount : 0 + pieceCount ([] ++ chunks.flatten) ≤ maxVars := by
    rw [zero_add]
    exact hmax
  exact postChunks_eq chunks hstart hcount []

/-- The body `a=1&&b%20` in three chunks. -/
theorem phpStdPostHandler_eq_sample : phpStdPostHandler 1000
        [[97, 61], [49, 38, 38, 98, 37], [50, 48]] = [([97], [49]), ([], []), ([98, 32], [])] := by
  refine (phpStdPostHandler_eq _ ?_).trans ?_
  · decide
  · decide

/-- The pairs of the pieces that are not empty. -/
def nonemptyPairs (body : List UInt8) : List (List UInt8 × List UInt8) :=
  ((body.splitOn (byte '&')).filter (· ≠ [])).map postPair

/-- Of `a&&b` an empty piece is registered too. -/
theorem empty_piece_registered :
    phpStdPostHandler 1000 [[97, 38, 38, 98]] ≠ nonemptyPairs [97, 38, 38, 98] := by
  decide

end Run

end PostVarData

end PhpEngine
