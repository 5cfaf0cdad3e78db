/-
The keys of opcache (ext/opcache/ZendAccelerator.c): a script is looked up under
the working directory, the requested name, the directory of the script that asks
for it and the include path, joined by colons.
-/
import PhpEngine.Decimal

namespace PhpEngine

open List

section Key

-- What the locale says of the bytes from 128 on.
variable (highAlnum : UInt8 → Bool)

/-- `isalnum` -/
def isalnum (c : UInt8) : Bool :=
  isDigit c || (byte 'A' ≤ c && c ≤ byte 'Z') ||
    (byte 'a' ≤ c && c ≤ byte 'z') || (128 ≤ c && highAlnum c)

def isSchemeByte (c : UInt8) : Bool :=
  isalnum highAlnum c || c == byte '+' || c == byte '-' || c == byte '.'

/-- `is_stream_path` -/
def isStreamPath (filename : List UInt8) : Bool :=
  let p := filename.dropWhile (isSchemeByte highAlnum)
  p[0]?.getD 0 == byte ':' && 1 < filename.length - p.length &&
    p[1]?.getD 0 == byte '/' && p[2]?.getD 0 == byte '/'

/-- `IS_ABSOLUTE_PATH` -/
def isAbsolutePath (path : List UInt8) : Bool :=
  path[0]?.getD 0 == byte '/'

/-- The loop that looks for the last slash of `parent_script`, from `len` on. -/
def parentScriptLen (script : List UInt8) : Nat → Nat
  | 0 => 0
  | len + 1 =>
    if 0 < len ∧ script[len]?.getD 0 ≠ byte '/' then parentScriptLen script len
    else len

/-- The directory of the script that is executed, when there is one. -/
def parentScript (executed : Option (List UInt8)) : Option (List UInt8) :=
  match executed with
  | none => none
  | some script =>
    if script[0]?.getD 0 = byte '[' then none
    else
      let len := parentScriptLen script script.length
      if len = 0 then none else some (script.take len)

/-- `accel_make_persistent_key_ex`.  The key has room for `sizeofKey` bytes; an
include path that has a key of its own is replaced by it. -/
def accelMakePersistentKeyEx (sizeofKey : Nat) (useCwd : Bool)
    (includePathKey : Option UInt8) (cwd filename : List UInt8)
    (executed : Option (List UInt8)) (includePath : List UInt8) : Option (List UInt8) :=
  let key :=
    if useCwd && !isAbsolutePath filename && !isStreamPath highAlnum filename then
      let includePath := match includePathKey with
        | some key => [key]
        | none => includePath
      let parent := match parentScript executed with
        | some parent => parent ++ [byte ':']
        | none => []
      cwd ++ [byte ':'] ++ filename ++ [byte ':'] ++ parent ++ includePath
    else filename
  if sizeofKey ≤ key.length then none else some key

/-- A component of a path that is not one of the two dots. -/
def IsComponent (name : List UInt8) : Prop :=
  name ≠ [] ∧ name ≠ [byte '.'] ∧ name ≠ [byte '.', byte '.'] ∧ byte '/' ∉ name ∧ 0 ∉ name

instance (name : List UInt8) : Decidable (IsComponent name) :=
  inferInstanceAs (Decidable (_ ∧ _))

/-- The absolute path through these components. -/
def absolutePath (names : List (List UInt8)) : List UInt8 :=
  if names = [] then [byte '/'] else names.flatMap (byte '/' :: ·)

/-- What `getcwd` returns. -/
def IsResolvedPath (path : List UInt8) : Prop :=
  ∃ names, (∀ name ∈ names, IsComponent name) ∧ path = absolutePath names

/-- A request for a relative name that is not a stream, with what the key is
made of.  A script that is executed has a name. -/
structure KeyRequest where
  cwd : List UInt8
  filename : List UInt8
  executed : Option (List UInt8)
  includePath : List UInt8
  resolved : IsResolvedPath cwd
  relative : isAbsolutePath filename = false
  not_stream : isStreamPath highAlnum filename = false
  named : executed ≠ some []
  no_nul : 0 ∉ filename ∧ 0 ∉ executed.getD [] ∧ 0 ∉ includePath

variable {highAlnum}

namespace KeyRequest

variable (q : KeyRequest highAlnum)

/-- The directories and the names that the key is to identify. -/
def parts : List UInt8 × List UInt8 × Option (List UInt8) × List UInt8 :=
  (q.cwd, q.filename, parentScript q.executed, q.includePath)

/-- The key with `use_cwd` and without a key for the include path. -/
def key (sizeofKey : Nat) : Option (List UInt8) :=
  accelMakePersistentKeyEx highAlnum sizeofKey true none q.cwd q.filename q.executed q.includePath

/-- No other request has the key. -/
def Identified (sizeofKey : Nat) : Prop :=
  ∀ (q' : KeyRequest highAlnum) (key : List UInt8),
    q.key sizeofKey = some key → q'.key sizeofKey = some key → q'.parts = q.parts

def keyLength : Nat :=
  q.cwd.length + q.filename.length + q.includePath.length + 2 + match parentScript q.executed with
    | some parent => parent.length + 1
    | none => 0

/-- The only colons are the two that separate the parts, and those of the working
directory that no relative name can follow. -/
def Separable : Prop :=
  parentScript q.executed = none ∧ byte ':' ∉ q.filename ∧ byte ':' ∉ q.includePath ∧
    ∀ dir rest, q.cwd = dir ++ byte ':' :: rest → IsResolvedPath dir → isAbsolutePath rest = true

/-- What stands behind the name in the key. -/
def lastParts : List UInt8 :=
  match parentScript q.executed with
  | some parent => parent ++ byte ':' :: q.includePath
  | none => q.includePath

/-- The text of the key. -/
def text : List UInt8 :=
  q.cwd ++ byte ':' :: (q.filename ++ byte ':' :: q.lastParts)

theorem length_text : q.text.length = q.keyLength := by
  rw [text, lastParts, keyLength]
  cases parentScript q.executed with
  | none | some parent =>
    simp only [length_append, length_cons]
    omega

theorem key_eq (sizeofKey : Nat) :
    q.key sizeofKey = if sizeofKey ≤ q.keyLength then none else some q.text := by
  have htext : q.cwd ++ [byte ':'] ++ q.filename ++ [byte ':'] ++
      (match parentScript q.executed with
        | some parent => parent ++ [byte ':']
        | none => []) ++ q.includePath = q.text := by
    rw [text, lastParts]
    cases parentScript q.executed with
    | none | some parent => simp
  rw [key, accelMakePersistentKeyEx]
  simp only [q.relative, q.not_stream, Bool.not_false, Bool.and_self, if_true]
  rw [htext, length_text]

variable {q}

theorem not_identified (q' : KeyRequest highAlnum) {sizeofKey : Nat}
    (hfits : ¬sizeofKey ≤ q.keyLength) (htext : q'.text = q.text)
    (hne : q'.parts ≠ q.parts) : ¬q.Identified sizeofKey := by
  intro hid
  apply hne
  have hlength : q'.keyLength = q.keyLength := by
    rw [← length_text, htext, length_text]
  apply hid q' q.text
  · rw [key_eq, if_neg hfits]
  · rw [key_eq, hlength, if_neg hfits, htext]

/-! A text without a colon is not a stream, and a colon that no slash follows
does not make one. -/

theorem isStreamPath_of_not_mem {filename : List UInt8}
    (h : byte ':' ∉ filename) : isStreamPath highAlnum filename = false := by
  have hfirst : (filename.dropWhile (isSchemeByte highAlnum))[0]?.getD 0 ≠ byte ':' := by
    intro hcolon
    cases hdrop : filename.dropWhile (isSchemeByte highAlnum) with
    | nil =>
      rw [hdrop] at hcolon
      cases hcolon
    | cons c rest =>
      rw [hdrop] at hcolon
      have hmem : c ∈ filename.dropWhile (isSchemeByte highAlnum) := by
        rw [hdrop]
        exact mem_cons_self
      have hc : c = byte ':' := by simpa using hcolon
      exact h (hc ▸ (dropWhile_suffix _).mem hmem)
  simp [isStreamPath, hfirst]

theorem isStreamPath_append {filename behind : List UInt8}
    (h : isStreamPath highAlnum filename = false) (hbehind : isAbsolutePath behind = false) :
    isStreamPath highAlnum (filename ++ byte ':' :: behind) = false := by
  have hscheme : (byte ':' :: behind).dropWhile (isSchemeByte highAlnum) = byte ':' :: behind := by
    rfl
  have hslash : byte ':' ≠ byte '/' := by decide
  have hfirst : behind[0]?.getD 0 ≠ byte '/' := by simpa [isAbsolutePath] using hbehind
  rw [isStreamPath] at h
  rw [isStreamPath, dropWhile_append, hscheme]
  rcases hrest : filename.dropWhile (isSchemeByte highAlnum) with
    - | ⟨a, - | ⟨b, - | ⟨c, rest⟩⟩⟩
  · simp [hfirst]
  · simp [hslash]
  · simp [hslash]
  · rw [hrest] at h
    have hlength : (filename ++ byte ':' :: behind).length -
        (a :: b :: c :: rest ++ byte ':' :: behind).length =
          filename.length - (a :: b :: c :: rest).length := by
      simp only [length_append]
      omega
    simp only [isEmpty_cons, Bool.false_eq_true, if_false, hlength]
    exact h

/-- Every directory that does not look like a message is that of a script. -/
theorem parentScript_script {dir : List UInt8} (hne : dir ≠ [])
    (hfirst : dir.head? ≠ some (byte '[')) :
    parentScript (some (dir ++ [byte '/', byte 'x'])) = some dir := by
  have hlength : (dir ++ [byte '/', byte 'x']).length = dir.length + 1 + 1 := by simp
  have hpos : 0 < dir.length := length_pos_iff.mpr hne
  have hname : (dir ++ [byte '/', byte 'x'])[dir.length + 1]?.getD 0 ≠ byte '/' := by
    simp
    decide
  have hslash : (dir ++ [byte '/', byte 'x'])[dir.length]?.getD 0 = byte '/' := by
    simp
  have hlen : parentScriptLen (dir ++ [byte '/', byte 'x'])
      (dir ++ [byte '/', byte 'x']).length = dir.length := by
    rw [hlength, parentScriptLen, if_pos ⟨Nat.succ_pos _, hname⟩, parentScriptLen,
      if_neg (fun h => h.2 hslash)]
  have hother : (dir ++ [byte '/', byte 'x'])[0]?.getD 0 ≠ byte '[' := by
    cases dir with
    | nil => exact absurd rfl hne
    | cons c rest => simpa using hfirst
  simp only [parentScript]
  rw [if_neg hother, hlen, if_neg (ne_of_gt hpos), take_left]

theorem parentScript_subset {executed : Option (List UInt8)} {parent : List UInt8}
    (h : parentScript executed = some parent) : parent ⊆ executed.getD [] := by
  cases executed with
  | none => cases h
  | some script =>
    simp only [parentScript] at h
    split at h
    · cases h
    · split at h
      · cases h
      · cases h
        exact take_subset _ _

theorem isAbsolutePath_of_append {first rest : List UInt8}
    (h : isAbsolutePath (first ++ rest) = false) : isAbsolutePath first = false := by
  cases first with
  | nil => rfl
  | cons c first => exact h

theorem isAbsolutePath_colon {first : List UInt8}
    (h : isAbsolutePath first = false) (rest : List UInt8) :
    isAbsolutePath (first ++ byte ':' :: rest) = false := by
  cases first with
  | nil => rfl
  | cons c first => exact h

theorem no_nul_of_resolved {path : List UInt8} (h : IsResolvedPath path) : 0 ∉ path := by
  obtain ⟨names, hnames, rfl⟩ := h
  intro hmem
  rw [absolutePath] at hmem
  split at hmem
  · exact absurd hmem (by decide)
  · obtain ⟨name, hname, hzero⟩ := mem_flatMap.mp hmem
    rcases mem_cons.mp hzero with hslash | hzero
    · cases hslash
    · exact (hnames name hname).2.2.2.2 hzero

/-! Other requests with the same key. -/

theorem not_identified_of_parent {sizeofKey : Nat}
    (hfits : ¬sizeofKey ≤ q.keyLength) (h : parentScript q.executed ≠ none) :
    ¬q.Identified sizeofKey := by
  obtain ⟨parent, hparent⟩ := Option.ne_none_iff_exists'.mp h
  obtain ⟨hfile, hscript, hpath⟩ := q.no_nul
  have hdir : 0 ∉ parent := fun hmem => hscript (parentScript_subset hparent hmem)
  let q' : KeyRequest highAlnum := { q with
    executed := none
    includePath := parent ++ byte ':' :: q.includePath
    named := by simp
    no_nul := ⟨hfile, by simp, by simp [hdir, hpath]; decide⟩ }
  have hnone : parentScript q'.executed = none := rfl
  apply not_identified q' hfits
  · rw [text, text, lastParts, lastParts, hparent, hnone]
  · intro hparts
    have hsame : parentScript q'.executed = parentScript q.executed :=
      congrArg (fun parts => parts.2.2.1) hparts
    rw [hnone, hparent] at hsame
    cases hsame

theorem not_identified_of_filename {sizeofKey : Nat}
    (hfits : ¬sizeofKey ≤ q.keyLength) (hparent : parentScript q.executed = none)
    (h : byte ':' ∈ q.filename) : ¬q.Identified sizeofKey := by
  obtain ⟨first, rest, hname, hfirst⟩ := eq_append_cons_of_mem h
  obtain ⟨hfile, hscript, hpath⟩ := q.no_nul
  let q' : KeyRequest highAlnum := { q with
    filename := first
    includePath := rest ++ byte ':' :: q.includePath
    relative := isAbsolutePath_of_append (hname ▸ q.relative)
    not_stream := isStreamPath_of_not_mem hfirst
    no_nul := ⟨by simp_all, hscript, by simp_all⟩ }
  apply not_identified q' hfits
  · simp [text, lastParts, q', hparent, hname]
  · intro hparts
    have hsame : first = q.filename := congrArg (fun parts => parts.2.1) hparts
    exact hfirst (hsame ▸ h)

theorem not_identified_of_includePath {sizeofKey : Nat}
    (hfits : ¬sizeofKey ≤ q.keyLength) (hparent : parentScript q.executed = none)
    (h : byte ':' ∈ q.includePath) : ¬q.Identified sizeofKey := by
  obtain ⟨first, rest, hinclude, -⟩ := eq_append_cons_of_mem h
  obtain ⟨hfile, hscript, hpath⟩ := q.no_nul
  by_cases hdir : first ≠ [] ∧ first.head? ≠ some (byte '[')
  · -- The first directory of the include path can be that of a script.
    have hscript' := parentScript_script hdir.1 hdir.2
    let q' : KeyRequest highAlnum := { q with
      executed := some (first ++ [byte '/', byte 'x'])
      includePath := rest
      named := by simp
      no_nul := ⟨hfile, by simp_all; decide, by simp_all⟩ }
    have hparent' : parentScript q'.executed = some first := hscript'
    apply not_identified q' hfits
    · simp [text, lastParts, q', hparent, hscript', hinclude]
    · intro hparts
      have hsame : parentScript q'.executed = parentScript q.executed :=
        congrArg (fun parts => parts.2.2.1) hparts
      rw [hparent, hparent'] at hsame
      cases hsame
  · -- Otherwise it can be a part of the name.
    have hother : isAbsolutePath first = false := by
      cases first with
      | nil => rfl
      | cons c first =>
        have hc : c = byte '[' := by simpa using hdir
        rw [hc]
        rfl
    let q' : KeyRequest highAlnum := { q with
      filename := q.filename ++ byte ':' :: first
      includePath := rest
      relative := isAbsolutePath_colon q.relative first
      not_stream := isStreamPath_append q.not_stream hother
      no_nul := ⟨by simp_all, hscript, by simp_all⟩ }
    apply not_identified q' hfits
    · simp [text, lastParts, q', hparent, hinclude]
    · intro hparts
      have hsame : q.filename ++ byte ':' :: first = q.filename :=
        congrArg (fun parts => parts.2.1) hparts
      simp at hsame

theorem not_identified_of_cwd {sizeofKey : Nat}
    (hfits : ¬sizeofKey ≤ q.keyLength) (hparent : parentScript q.executed = none)
    {dir rest : List UInt8} (hcwd : q.cwd = dir ++ byte ':' :: rest)
    (hdir : IsResolvedPath dir) (hrest : isAbsolutePath rest = false) :
    ¬q.Identified sizeofKey := by
  have hmem : byte ':' ∈ rest ++ byte ':' :: q.filename := by simp
  obtain ⟨first, more, hname, hfirst⟩ := eq_append_cons_of_mem hmem
  obtain ⟨hfile, hscript, hpath⟩ := q.no_nul
  have hnul : 0 ∉ rest ++ byte ':' :: q.filename := by
    have hzero := no_nul_of_resolved q.resolved
    rw [hcwd] at hzero
    simp only [mem_append, mem_cons, not_or] at hzero ⊢
    exact ⟨hzero.2.2, hzero.2.1, hfile⟩
  let q' : KeyRequest highAlnum := { q with
    cwd := dir
    filename := first
    includePath := more ++ byte ':' :: q.includePath
    resolved := hdir
    relative := by
      apply isAbsolutePath_of_append
      rw [← hname]
      exact isAbsolutePath_colon hrest q.filename
    not_stream := isStreamPath_of_not_mem hfirst
    no_nul := ⟨by simp_all, hscript, by simp_all⟩ }
  apply not_identified q' hfits
  · have htext : rest ++ byte ':' :: (q.filename ++ byte ':' :: q.includePath) =
        first ++ byte ':' :: (more ++ byte ':' :: q.includePath) := by
      simpa using congrArg (· ++ byte ':' :: q.includePath) hname
    simp [text, lastParts, q', hparent, hcwd, htext]
  · intro hparts
    have hsame : dir = q.cwd := congrArg (fun parts => parts.1) hparts
    rw [hcwd] at hsame
    simp at hsame

theorem colon_inj {first rest first' rest' : List UInt8}
    (hfirst : byte ':' ∉ first) (hrest : byte ':' ∉ rest)
    (h : first ++ byte ':' :: rest = first' ++ byte ':' :: rest') :
    first = first' ∧ rest = rest' := by
  rcases append_eq_append_iff.mp h with ⟨e, he, hbehind⟩ | ⟨e, he, hbehind⟩
  · cases e with
    | nil => simpa using And.intro he.symm hbehind
    | cons c e =>
      rw [cons_append, List.cons.injEq] at hbehind
      exact absurd (hbehind.2 ▸ by simp) hrest
  · cases e with
    | nil => simpa using And.intro he hbehind.symm
    | cons c e =>
      rw [cons_append, List.cons.injEq] at hbehind
      exact absurd (by simp [he, hbehind.1]) hfirst

/-- A key whose colons all separate is not that of another request. -/
theorem identified_of_separable {sizeofKey : Nat} (h : q.Separable) : q.Identified sizeofKey := by
  obtain ⟨hparent, hfile, hinclude, hcwd⟩ := h
  intro q' key hkey hkey'
  have htext : q.text = q'.text := by
    rw [key_eq] at hkey hkey'
    split at hkey
    · cases hkey
    · split at hkey'
      · cases hkey'
      · exact (Option.some.inj hkey).trans (Option.some.inj hkey').symm
  have hlast : q.lastParts = q.includePath := by
    rw [lastParts, hparent]
  rw [text, text, hlast] at htext
  have hsame : q'.cwd = q.cwd := by
    rcases append_eq_append_iff.mp htext with
      ⟨e, he, hbehind⟩ | ⟨e, he, hbehind⟩
    · -- A longer directory would leave too few colons.
      cases e with
      | nil => rw [he, append_nil]
      | cons c e =>
        rw [cons_append, List.cons.injEq] at hbehind
        have hpath := (colon_inj hfile hinclude hbehind.2).2
        exact absurd (hpath ▸ by simp) hinclude
    · -- Behind a shorter one there would be a name with a slash in front.
      cases e with
      | nil => rw [he, append_nil]
      | cons c rest =>
        rw [cons_append, List.cons.injEq] at hbehind
        obtain ⟨rfl, hname⟩ := hbehind
        have habsolute := hcwd _ rest he q'.resolved
        have hrelative := isAbsolutePath_colon q'.relative q'.lastParts
        rw [hname] at hrelative
        cases rest with
        | nil => cases habsolute
        | cons c rest => exact absurd habsolute (by simpa [isAbsolutePath] using hrelative)
  rw [hsame] at htext
  have hnames := (List.cons.inj (append_cancel_left htext)).2
  obtain ⟨hname, hlasts⟩ := colon_inj hfile hinclude hnames
  have hparent' : parentScript q'.executed = none := by
    cases hscript : parentScript q'.executed with
    | none => rfl
    | some parent =>
      rw [lastParts, hscript] at hlasts
      exact absurd (hlasts ▸ by simp) hinclude
  have hpath : q.includePath = q'.includePath := by
    rw [hlasts, lastParts, hparent']
  rw [parts, parts, hsame, ← hname, ← hpath, hparent, hparent']

/-- A request is identified by its key exactly when all colons of the key are
those that separate its parts; requests without a key apart. -/
theorem identified_iff (q : KeyRequest highAlnum) (sizeofKey : Nat) :
    q.Identified sizeofKey ↔ sizeofKey ≤ q.keyLength ∨ q.Separable := by
  constructor
  · intro hid
    by_contra hnot
    obtain ⟨hfits, hseparable⟩ := not_or.mp hnot
    have hparent : parentScript q.executed = none := by
      by_contra hne
      exact not_identified_of_parent hfits hne hid
    apply hseparable
    refine ⟨hparent, ?_, ?_, ?_⟩
    · intro hmem
      exact not_identified_of_filename hfits hparent hmem hid
    · intro hmem
      exact not_identified_of_includePath hfits hparent hmem hid
    · intro dir rest hcwd hdir
      cases hrest : isAbsolutePath rest with
      | true => rfl
      | false =>
        exact absurd hid (not_identified_of_cwd hfits hparent hcwd hdir hrest)
  · rintro (hlong | hseparable)
    · intro q' key hkey
      rw [key_eq, if_pos hlong] at hkey
      cases hkey
    · exact identified_of_separable hseparable

end KeyRequest

end Key

/-- A main script `a.php`, with two directories in the include path. -/
def mainRequest : KeyRequest (fun _ => false) where
  cwd := "/w".toList.map byte
  filename := "a.php".toList.map byte
  executed := none
  includePath := "/lib:/usr".toList.map byte
  resolved := ⟨["w".toList.map byte], by decide, by decide⟩
  relative := by decide
  not_stream := by decide
  named := by decide
  no_nul := by decide

/-- The same name, asked for by a script in the first of these directories, with
only the second in the include path. -/
def libRequest : KeyRequest (fun _ => false) := { mainRequest with
  executed := some ("/lib/x.php".toList.map byte)
  includePath := "/usr".toList.map byte
  named := by decide
  no_nul := by decide }

theorem mainRequest_not_identified : ¬mainRequest.Identified (4096 * 8) := by
  intro hid
  have hparts := hid libRequest ("/w:a.php:/lib:/usr".toList.map byte) (by decide) (by decide)
  have hparent : parentScript libRequest.executed = none :=
    congrArg (fun parts => parts.2.2.1) hparts
  cases hparent

end PhpEngine
