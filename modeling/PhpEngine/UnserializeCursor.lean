/-
How far the unserializer reads.  Tokens end before the NUL byte behind the
buffer; a string action and an object header step over a byte they have not
looked at, and may so step over the end.
-/
import PhpEngine.Unserializer

namespace PhpEngine

open List Option

section Scanner

variable {mem : Nat → UInt8} {max c e : Nat}

theorem lt_of_ne_zero (hnul : mem max = 0) (hc : c ≤ max) (h : mem c ≠ 0) : c < max := by
  rcases Nat.lt_or_eq_of_le hc with hlt | rfl
  · exact hlt
  · exact absurd hnul h

theorem holdsAt_le (hnul : mem max = 0) (hc : c ≤ max) {l : List UInt8}
    (hl : ∀ b ∈ l, b ≠ 0) (h : HoldsAt mem c l) : c + l.length ≤ max := by
  induction l generalizing c with
  | nil => exact hc
  | cons b rest ih =>
    obtain ⟨hb, hrest⟩ := h
    have hlt : c < max := by
      apply lt_of_ne_zero hnul hc
      rw [hb]
      exact hl b mem_cons_self
    have hle := ih hlt (fun x hx => hl x (mem_cons_of_mem b hx)) hrest
    rw [length_cons]
    omega

theorem scanDigits_bounds (mem : Nat → UInt8) (modulus fuel c acc : Nat) :
    c ≤ (scanDigits mem modulus fuel c acc).2 ∧
      (scanDigits mem modulus fuel c acc).2 ≤ c + fuel := by
  induction fuel generalizing c acc with
  | zero => exact ⟨le_refl c, le_refl c⟩
  | succ fuel ih =>
    rw [scanDigits]
    split
    · obtain ⟨hlow, hhigh⟩ := ih (c + 1) ((acc * 10 + digitValue (mem c)) % modulus)
      omega
    · exact ⟨le_refl c, Nat.le_add_right c _⟩

theorem skipSign_bounds (hnul : mem max = 0) (hc : c ≤ max) :
    c ≤ skipSign mem c ∧ skipSign mem c ≤ max := by
  rw [skipSign]
  split
  next h =>
    have hlt : c < max := by
      apply lt_of_ne_zero hnul hc
      rcases h with h | h <;> rw [h] <;> decide
    omega
  next => exact ⟨le_refl c, hc⟩

theorem skipPlus_bounds (hnul : mem max = 0) (hc : c ≤ max) :
    c ≤ skipPlus mem c ∧ skipPlus mem c ≤ max := by
  rw [skipPlus]
  split
  next h =>
    have hlt : c < max := by
      apply lt_of_ne_zero hnul hc
      rw [h]
      decide
    omega
  next => exact ⟨le_refl c, hc⟩

theorem digitsEnd_bounds (mem : Nat → UInt8) (hc : c ≤ max) :
    c ≤ digitsEnd mem max c ∧ digitsEnd mem max c ≤ max := by
  have h := scanDigits_bounds mem ulongMod (max - c) c 0
  rw [digitsEnd]
  omega

theorem parseIv2_bounds (hnul : mem max = 0) (hc : c ≤ max) :
    c ≤ (parseIv2 mem max c).2 ∧ (parseIv2 mem max c).2 ≤ max := by
  have hsign := skipSign_bounds hnul hc
  have hscan := scanDigits_bounds mem ulongMod (max - skipSign mem c) (skipSign mem c) 0
  simp only [parseIv2]
  omega

/-- A matcher moves on, but not over the NUL. -/
def Matches (max : Nat) (f : Nat → Option Nat) : Prop :=
  ∀ c e, c ≤ max → f c = some e → c ≤ e ∧ e ≤ max

theorem matchDigits_matches : Matches max (matchDigits mem max) := by
  intro c e hc h
  rw [matchDigits] at h
  split at h
  next =>
    cases h
    exact digitsEnd_bounds mem hc
  next => cases h

section

variable (hnul : mem max = 0)
include hnul

theorem matchIv_matches : Matches max (matchIv mem max) := by
  intro c e hc h
  have hsign := skipSign_bounds hnul hc
  have hdigits := matchDigits_matches _ e hsign.2 h
  omega

theorem matchUiv_matches : Matches max (matchUiv mem max) := by
  intro c e hc h
  have hsign := skipPlus_bounds hnul hc
  have hdigits := matchDigits_matches _ e hsign.2 h
  omega

theorem matchMantissa_matches : Matches max (matchMantissa mem max) := by
  intro c e hc h
  have hsign := skipSign_bounds hnul hc
  have hint := digitsEnd_bounds mem hsign.2
  simp only [matchMantissa] at h
  split at h
  next hdot =>
    have hlt : digitsEnd mem max (skipSign mem c) + 1 ≤ max := by
      apply lt_of_ne_zero hnul hint.2
      rw [hdot]
      decide
    have hfrac := digitsEnd_bounds mem hlt
    split at h
    next =>
      cases h
      omega
    next => cases h
  next =>
    split at h
    next =>
      cases h
      omega
    next => cases h

theorem matchNumber_matches : Matches max (matchNumber mem max) := by
  intro c e hc h
  obtain ⟨m, hm, h⟩ := bind_eq_some_iff.mp h
  have hmant := matchMantissa_matches hnul c m hc hm
  split at h
  next hexp =>
    have hlt : m < max := by
      apply lt_of_ne_zero hnul hmant.2
      rcases hexp with hexp | hexp <;> rw [hexp] <;> decide
    have hsign := skipSign_bounds hnul hlt
    have hiv := matchIv_matches hnul _ e hsign.2 h
    omega
  next =>
    cases h
    exact hmant

theorem matchText_bounds (hc : c ≤ max) {text : String} (htext : ∀ b ∈ text.toList.map byte, b ≠ 0)
    (h : matchText mem c text = some e) :
    e = c + text.toList.length ∧ e ≤ max := by
  rw [matchText] at h
  split at h
  next hholds =>
    cases h
    exact ⟨by simp, holdsAt_le hnul hc htext hholds⟩
  next => cases h

theorem matchDouble_matches : Matches max (matchDouble mem max) := by
  intro c e hc h
  have htext : ∀ text ∈ ["NAN", "INF", "-INF"],
      matchText mem c text = some e → c ≤ e ∧ e ≤ max := by
    intro text htext h
    have hnonzero : ∀ text ∈ ["NAN", "INF", "-INF"],
        ∀ b ∈ text.toList.map byte, b ≠ 0 := by decide +kernel
    have hbounds := matchText_bounds hnul hc (hnonzero text htext) h
    omega
  simp only [matchDouble, orElse_eq_some] at h
  rcases h with h | ⟨-, h | ⟨-, h | ⟨-, h⟩⟩⟩
  · exact htext _ (by simp) h
  · exact htext _ (by simp) h
  · exact htext _ (by simp) h
  · exact matchNumber_matches hnul c e hc h

theorem lexBody_bounds {start : Nat} (hstart : start < max) {body : Nat → Option Nat}
    (hbody : Matches max body) {close : String} (hclose : ∀ b ∈ close.toList.map byte, b ≠ 0)
    (h : lexBody mem start body close = some e) : start + 2 ≤ e ∧ e ≤ max := by
  obtain ⟨c, hc, h⟩ := bind_eq_some_iff.mp h
  obtain ⟨m, hm, h⟩ := bind_eq_some_iff.mp h
  have hcolon := matchText_bounds hnul hstart (by decide +kernel) hc
  have hlen : ":".toList.length = 1 := by decide
  have hmid := hbody c m hcolon.2 hm
  have hend := matchText_bounds hnul hmid.2 hclose h
  omega

end

theorem ite_eq_some {α : Type} {p : Prop} [Decidable p] {a b : Option α}
    {x : α} (h : (if p then a else b) = some x) : p ∧ a = some x ∨ ¬ p ∧ b = some x := by
  by_cases hp : p
  · exact .inl ⟨hp, by rwa [if_pos hp] at h⟩
  · exact .inr ⟨hp, by rwa [if_neg hp] at h⟩

/-- A token has at least two bytes and ends before the NUL. -/
def Tight (max start : Nat) (o : Option (Token × Nat)) : Prop :=
  ∀ token e, o = some (token, e) → start + 2 ≤ e ∧ e ≤ max

theorem Tight.ite {start : Nat} {p : Prop} [Decidable p] {a b : Option (Token × Nat)}
    (ha : Tight max start a) (hb : Tight max start b) : Tight max start (if p then a else b) := by
  split
  · exact ha
  · exact hb

theorem Tight.tagged {start : Nat} {o : Option Nat} {tag : Token}
    (h : ∀ e, o = some e → start + 2 ≤ e ∧ e ≤ max) : Tight max start (o.map (tag, ·)) := by
  intro token e hmap
  obtain ⟨x, hx, hpair⟩ := map_eq_some_iff.mp hmap
  cases hpair
  exact h _ hx

theorem lexToken_bounds (hnul : mem max = 0) {start : Nat} (hstart : start < max) :
    Tight max start (lexToken mem max start) := by
  have hbody : ∀ {body : Nat → Option Nat} {close : String} {tag : Token},
      Matches max body → (∀ b ∈ close.toList.map byte, b ≠ 0) →
      Tight max start ((lexBody mem start body close).map (tag, ·)) :=
    fun hmatches hclose => Tight.tagged fun _ h => lexBody_bounds hnul hstart hmatches hclose h
  have hiv := matchIv_matches hnul
  have huiv := matchUiv_matches hnul
  have hnull : Tight max start ((matchText mem (start + 1) ";").map (Token.null, ·)) := by
    refine Tight.tagged fun e h => ?_
    have hbounds := matchText_bounds hnul hstart (by decide +kernel) h
    have hlen : ";".toList.length = 1 := by decide
    omega
  have hzeroOne : Matches max fun c =>
      if mem c = byte '0' ∨ mem c = byte '1' then some (c + 1) else none := by
    intro c e hc h
    rcases ite_eq_some h with ⟨hdigit, h⟩ | ⟨-, h⟩
    · cases h
      have hlt : c < max := by
        apply lt_of_ne_zero hnul hc
        rcases hdigit with hdigit | hdigit <;> rw [hdigit] <;> decide
      omega
    · cases h
  refine .ite (hbody hiv (by decide +kernel)) ?_
  refine .ite (hbody hiv (by decide +kernel)) ?_
  refine .ite hnull ?_
  refine .ite (hbody hzeroOne (by decide +kernel)) ?_
  refine .ite (hbody hiv (by decide +kernel)) ?_
  refine .ite (hbody (matchDouble_matches hnul) (by decide +kernel)) ?_
  refine .ite (hbody huiv (by decide +kernel)) ?_
  refine .ite (hbody huiv (by decide +kernel)) ?_
  refine .ite (hbody huiv (by decide +kernel)) ?_
  refine .ite (hbody hiv (by decide +kernel)) ?_
  refine .ite (hbody huiv (by decide +kernel)) ?_
  refine .ite (hbody huiv (by decide +kernel)) ?_
  rintro token e ⟨⟩

theorem hexValue_ne_zero {b : UInt8} {n : Nat} (h : hexValue b = some n) : b ≠ 0 := by
  rintro rfl
  revert h
  decide +revert

/-- `unserialize_str` does not leave the buffer: an escape needs two bytes
that are not NUL. -/
theorem unserializeStr_bounds (hnul : mem max = 0) {len : Nat} {acc str : List UInt8} (hc : c ≤ max)
    (h : unserializeStr mem max len c acc = some (str, e)) : c ≤ e ∧ e ≤ max := by
  induction len generalizing c acc with
  | zero =>
    cases h
    exact ⟨le_rfl, hc⟩
  | succ len ih =>
    rw [unserializeStr] at h
    split at h
    · cases h
    next hlt =>
      split at h
      · have hrest := ih (by omega) h
        omega
      next =>
        obtain ⟨high, hhigh, h⟩ := bind_eq_some_iff.mp h
        obtain ⟨low, hlow, h⟩ := bind_eq_some_iff.mp h
        have hfirst : c + 1 < max :=
          lt_of_ne_zero hnul (by omega) (hexValue_ne_zero hhigh)
        have hsecond : c + 2 < max :=
          lt_of_ne_zero hnul hfirst (hexValue_ne_zero hlow)
        have hrest := ih hsecond h
        omega

end Scanner

/-! Where the end is stepped over. -/

/-- The cursor or the byte looked at is not behind the NUL. -/
def Event.Within (max : Nat) : Event → Prop
  | .called start _ => start ≤ max
  | .returned _ stop => stop ≤ max
  | .looked position => position ≤ max

/-- A string at `start` whose closing quote is the last byte of the buffer. -/
def cutString (mem : Nat → UInt8) (max start : Nat) : Bool :=
  let len := parseUiv mem max (start + 2)
  match lexToken mem max start with
  | some (.string, cursor) =>
    cursor + len + 1 = max ∧ mem (cursor + len) = byte '"'
  | some (.escaped, cursor) =>
    match unserializeStr mem max len cursor [] with
    | some (_, c) => len ≤ max - cursor ∧ c + 1 = max ∧ mem c = byte '"'
    | none => false
  | _ => false

/-- An object at `start` that is created, has no elements, and whose element
count ends in one of the last two positions, so that there is no room for the
two bytes behind it. -/
def cutObject (user : UserCode) (mem : Nat → UInt8) (max start : Nat) : Bool :=
  match lexToken mem max start with
  | some (.object, cursor) =>
    match objectHeader mem max start cursor with
    | .error _ => false
    | .ok name =>
      match classOf user start name with
      | none => false
      | some (ce, _) =>
        let n := parseIv2 mem max (cursor + name.length + 2)
        !ce.serialize ∧ !ce.abstract ∧ n.1 ≤ 0 ∧ max < n.2 + 2 ∧
          ¬ (ce.wakeup ∧ user.wakeupThrows start)
  | _ => false

/-- The steps that go wrong.  A key is read without `var_hash`, and then an
object is refused. -/
def Event.Cut (user : UserCode) (mem : Nat → UInt8) (max : Nat) : Event → Prop
  | .called start hash => cutString mem max start = true ∨
      hash = true ∧ cutObject user mem max start = true
  | _ => False

/-- A trace that stays within the buffer exactly if it has no cut. -/
def Sound (user : UserCode) (mem : Nat → UInt8) (max : Nat) (trace : List Event) : Prop :=
  (∀ e ∈ trace, e.Within max) ↔ ∀ e ∈ trace, ¬ e.Cut user mem max

/-- What holds of the state while the parse succeeds, and of its trace when it fails. -/
structure Kept (user : UserCode) (mem : Nat → UInt8) (max low : Nat) (s : UState)
    (ok : Bool) : Prop where
  sound : Sound user mem max s.trace
  low_le : ok = true → low ≤ s.p
  bound : ok = true → (∀ e ∈ s.trace, ¬ e.Cut user mem max) → s.p ≤ max

section Kept

variable {user : UserCode} {mem : Nat → UInt8} {max low : Nat} {s s' : UState} {ok : Bool}

theorem Sound.of_cut {trace : List Event} {e e' : Event} (he : e ∈ trace) (hpast : ¬ e.Within max)
    (he' : e' ∈ trace) (hcut : e'.Cut user mem max) : Sound user mem max trace :=
  ⟨fun h => absurd (h e he) hpast, fun h => absurd hcut (h e' he')⟩

/-- An event that is no cut, and within the buffer as long as the trace has none. -/
theorem Sound.cons {trace : List Event} {e : Event} (h : Sound user mem max trace)
    (hcut : ¬ e.Cut user mem max)
    (hwithin : (∀ e ∈ trace, ¬ e.Cut user mem max) → e.Within max) :
    Sound user mem max (e :: trace) := by
  rw [Sound, forall_mem_cons, forall_mem_cons]
  constructor
  · rintro ⟨_, hall⟩
    exact ⟨hcut, h.mp hall⟩
  · rintro ⟨_, hnone⟩
    exact ⟨hwithin hnone, h.mpr hnone⟩

theorem Kept.fail (h : Sound user mem max s.trace) : Kept user mem max low s false :=
  ⟨h, by simp, by simp⟩

theorem Kept.congr (h : Kept user mem max low s ok)
    (htrace : s'.trace = s.trace) (hp : s'.p = s.p) : Kept user mem max low s' ok :=
  ⟨htrace ▸ h.sound, hp ▸ h.low_le, htrace ▸ hp ▸ h.bound⟩

theorem Kept.look (h : Kept user mem max low s true) {i : Nat} (hi : i ≤ s.p) :
    Kept user mem max low (s.note (.looked i)) true := by
  have hwithin : (∀ e ∈ s.trace, ¬ e.Cut user mem max) → (Event.looked i).Within max :=
    fun hnone => le_trans hi (h.bound rfl hnone)
  exact ⟨h.sound.cons id hwithin, h.low_le,
    fun hok hnone => h.bound hok fun e he => hnone e (mem_cons_of_mem _ he)⟩

theorem finishNestedData_kept (hnul : mem max = 0) (h : Kept user mem max low s true) :
    Kept user mem max low (finishNestedData mem s).2 (finishNestedData mem s).1 := by
  have hlook := h.look (le_refl s.p)
  refine ⟨hlook.sound, fun _ => Nat.le_succ_of_le (h.low_le rfl), fun hok hnone => ?_⟩
  have hbrace : mem s.p = byte '\x7d' := of_decide_eq_true hok
  apply lt_of_ne_zero hnul (hlook.bound rfl hnone)
  change mem s.p ≠ 0
  rw [hbrace]
  decide

/-- The recursive calls, at positions from `low` on, meet their specification;
the zval that they are given is allocated. -/
def CallsFrom (user : UserCode) (mem : Nat → UInt8) (max low : Nat)
    (call : Nat → Bool → UState → Option Ret) : Prop :=
  ∀ rval hash s, low ≤ s.p → rval < s.next → Sound user mem max s.trace →
    ∃ r, call rval hash s = some r ∧ Kept user mem max low r.s r.ok ∧ (r.ok = true → s.p < max)

theorem processNestedData_kept {call : Nat → Bool → UState → Option Ret}
    (hcall : CallsFrom user mem max low call) (ht : Nat) (objprops : Bool) (elements : Nat)
    (hs : Kept user mem max low s true) :
    ∃ r, processNestedData mem call ht objprops elements s = some r ∧
      Kept user mem max low r.2 r.1 := by
  induction elements generalizing s with
  | zero => exact ⟨(true, s), rfl, hs⟩
  | succ elements ih =>
    obtain ⟨key, hkey, hkept, -⟩ :=
      hcall s.next false s.allocZval (hs.low_le rfl) (Nat.lt_succ_self s.next) hs.sound
    rw [processNestedData, hkey]
    change ∃ r, (if !key.ok then some (false, key.s) else _) = some r ∧ _
    cases hok : key.ok with
    | false => exact ⟨(false, key.s), rfl, Kept.fail hkept.sound⟩
    | true =>
      cases hk : elementKey objprops (key.s.zvals key.rval).value with
      | none => exact ⟨(false, key.s), rfl, Kept.fail hkept.sound⟩
      | some k =>
        obtain ⟨data, hdata, hkept', -⟩ := hcall key.s.next true key.s.allocZval
          (hkept.low_le hok) (Nat.lt_succ_self key.s.next) hkept.sound
        rw [hdata]
        change ∃ r, (if !data.ok then some (false, data.s) else _) = some r ∧ _
        cases hok' : data.ok with
        | false => exact ⟨(false, data.s), rfl, Kept.fail hkept'.sound⟩
        | true =>
          rw [hok'] at hkept'
          rw [if_neg (by simp)]
          have hstored : Kept user mem max low (data.s.setTable ht
              ((data.s.tables ht).store k data.rval)) true :=
            hkept'.congr rfl rfl
          generalize data.s.setTable ht ((data.s.tables ht).store k data.rval) = s₂ at hstored
          by_cases hmore : 0 < elements
          · rw [if_pos hmore]
            have hlook := hstored.look (Nat.sub_le s₂.p 1)
            dsimp only
            split
            · exact ⟨_, rfl, Kept.fail hlook.sound⟩
            · exact ih hlook
          · rw [if_neg hmore]
            exact ih hstored

theorem objectCommon2_kept {call : Nat → Bool → UState → Option Ret}
    (ce : ClassEntry) (elements : Int) (start rval : Nat) (hnul : mem max = 0)
    (hcall : CallsFrom user mem max low call) (hs : Kept user mem max low s true) :
    ∃ r, objectCommon2 user mem call ce start rval elements s = some r ∧
      Kept user mem max low r.s r.ok := by
  rw [objectCommon2]
  cases (s.zvals rval).value with
  | object handle =>
    obtain ⟨⟨ok, s'⟩, hrun, hkept⟩ := processNestedData_kept hcall
      (s.objects handle).properties true elements.toNat hs
    change ∃ r, Option.bind _ _ = some r ∧ _
    rw [hrun]
    cases ok with
    | false => exact ⟨⟨false, rval, s'⟩, rfl, hkept⟩
    | true =>
      have hwoken : Kept user mem max low (if ce.wakeup = true then
          s'.afterUser (user.wakeup start s') else s') true := by
        split
        · exact hkept.congr rfl rfl
        · exact hkept
      change ∃ r, (if ce.wakeup = true ∧ _ then some _ else some _) = some r ∧ _
      split
      · exact ⟨_, rfl, Kept.fail hwoken.sound⟩
      · exact ⟨_, rfl, finishNestedData_kept hnul hwoken⟩
  | _ => exact ⟨_, rfl, Kept.fail hs.sound⟩

end Kept

section Actions

variable {user : UserCode} {mem : Nat → UInt8} {max start cursor rval : Nat}
  {hash : Bool} {s s₀ : UState} {r : Ret} {call : Nat → Bool → UState → Option Ret}

/-- The state of an action: the entry of its call is the last event. -/
def Entered (user : UserCode) (mem : Nat → UInt8) (max start : Nat) (hash : Bool)
    (s : UState) : Prop :=
  ∃ old, s.trace = .called start hash :: old ∧ start ≤ max ∧ Sound user mem max old

/-- What an action leaves, with the return that the call adds when it succeeds. -/
structure Acts (user : UserCode) (mem : Nat → UInt8) (max start : Nat) (r : Ret) : Prop where
  lt : r.ok = true → start < r.s.p
  sound : Sound user mem max (if r.ok then .returned start r.s.p :: r.s.trace else r.s.trace)

section

variable (h : Entered user mem max start hash s)
include h

theorem Entered.congr (htrace : s₀.trace = s.trace) :
    Entered user mem max start hash s₀ := by
  rwa [Entered, htrace]

theorem Entered.sound (hcut : ¬ (Event.called start hash).Cut user mem max) :
    Sound user mem max s.trace := by
  obtain ⟨old, htrace, hstart, hold⟩ := h
  rw [htrace]
  exact hold.cons hcut fun _ => hstart

theorem Acts.fail (hcut : ¬ (Event.called start hash).Cut user mem max)
    (htrace : r.s.trace = s.trace) (hok : r.ok = false) : Acts user mem max start r :=
  ⟨by simp [hok], by simpa [hok, htrace] using h.sound hcut⟩

end

theorem Kept.acts (h : Kept user mem max (start + 1) r.s r.ok) : Acts user mem max start r := by
  refine ⟨h.low_le, ?_⟩
  split
  next hok => exact h.sound.cons id (h.bound hok)
  next => exact h.sound

section

variable (h : Entered user mem max start hash s)
  (hcut : ¬ (Event.called start hash).Cut user mem max)
include h hcut

theorem Entered.kept (htrace : s₀.trace = s.trace) (hlt : start < s₀.p) (hle : s₀.p ≤ max) :
    Kept user mem max (start + 1) s₀ true :=
  ⟨htrace ▸ h.sound hcut, fun _ => hlt, fun _ _ => hle⟩

/-- A token without nested calls that returns where it ends. -/
theorem Acts.atom (htrace : r.s.trace = s.trace) (hlt : start < r.s.p) (hle : r.s.p ≤ max) :
    Acts user mem max start r :=
  Kept.acts ⟨htrace ▸ h.sound hcut, fun _ => hlt, fun _ _ => hle⟩

end

theorem not_cut {token : Token} (hlex : lexToken mem max start = some (token, cursor))
    (hstring : token ≠ .string) (hescaped : token ≠ .escaped) (hobject : token ≠ .object) :
    ¬ (Event.called start hash).Cut user mem max := by
  rintro (h | ⟨_, h⟩)
  · simp only [cutString, hlex] at h
    cases token <;> simp at h hstring hescaped hobject
  · simp only [cutObject, hlex] at h
    cases token <;> simp at h hstring hescaped hobject

theorem unserializeRef_acts {isRef : Bool} (h : Entered user mem max start hash s)
    (hcut : ¬ (Event.called start hash).Cut user mem max) (hlt : start < cursor)
    (hle : cursor ≤ max) :
    Acts user mem max start (unserializeRef mem max isRef start cursor rval hash s) := by
  have hspec : (unserializeRef mem max isRef start cursor rval hash s).s.trace = s.trace ∧
      (unserializeRef mem max isRef start cursor rval hash s).s.p = cursor := by
    simp only [unserializeRef]
    repeat' split
    all_goals exact ⟨rfl, rfl⟩
  exact Acts.atom h hcut hspec.1 (hspec.2.symm ▸ hlt) (hspec.2.symm ▸ hle)

section

variable (hnul : mem max = 0) (h : Entered user mem max start hash s)
include hnul h

/-- The two string actions: the cursor is left two bytes behind the quote. -/
theorem closingQuote_acts {value : UValue} {c : Nat} (hlt : start < c) (hle : c ≤ max)
    (hquote : mem c = byte '"') (hcut : (Event.called start hash).Cut user mem max ↔ c + 1 = max) :
    Acts user mem max start (unserializeScalar value (c + 2) rval s) := by
  have hclt : c < max := by
    apply lt_of_ne_zero hnul hle
    rw [hquote]
    decide
  by_cases hlast : c + 1 = max
  · -- The cut shows in the position that the call returns with.
    obtain ⟨old, htrace, -, -⟩ := h
    refine ⟨fun _ => ?_, ?_⟩
    · change start < c + 2
      omega
    · change Sound user mem max (.returned start (c + 2) :: s.trace)
      rw [htrace]
      refine Sound.of_cut mem_cons_self ?_ (mem_cons_of_mem _ mem_cons_self) (hcut.mpr hlast)
      change ¬ c + 2 ≤ max
      omega
  · refine Acts.atom h (mt hcut.mp hlast) (by rfl) ?_ ?_
    · change start < c + 2
      omega
    · change c + 2 ≤ max
      omega

theorem unserializeString_acts (hlex : lexToken mem max start = some (.string, cursor))
    (hlt : start < cursor) (hle : cursor ≤ max) :
    Acts user mem max start (unserializeString mem max start cursor rval s) := by
  have hcut : (Event.called start hash).Cut user mem max ↔
      cursor + parseUiv mem max (start + 2) + 1 = max ∧
        mem (cursor + parseUiv mem max (start + 2)) = byte '"' := by
    simp [Event.Cut, cutString, cutObject, hlex]
  simp only [unserializeString]
  generalize parseUiv mem max (start + 2) = len at hcut ⊢
  split
  next hshort =>
    refine Acts.fail h ?_ rfl rfl
    rw [hcut]
    omega
  next hfits =>
    split
    next hquote =>
      refine Acts.fail h ?_ rfl rfl
      rw [hcut]
      exact fun h => hquote h.2
    next hquote =>
      have hquote : mem (cursor + len) = byte '"' := by simpa using hquote
      apply closingQuote_acts hnul h (by omega) (by omega) hquote
      rw [hcut]
      exact and_iff_left hquote

theorem unserializeEscaped_acts (hlex : lexToken mem max start = some (.escaped, cursor))
    (hlt : start < cursor) (hle : cursor ≤ max) :
    Acts user mem max start (unserializeEscaped mem max start cursor rval s) := by
  have hcut : (Event.called start hash).Cut user mem max ↔
      ∃ str c, unserializeStr mem max (parseUiv mem max (start + 2)) cursor [] = some (str, c) ∧
        parseUiv mem max (start + 2) ≤ max - cursor ∧ c + 1 = max ∧
        mem c = byte '"' := by
    simp only [Event.Cut, cutString, cutObject, hlex]
    cases hstr : unserializeStr mem max (parseUiv mem max (start + 2)) cursor [] with
    | none => simp
    | some pair =>
      obtain ⟨str, c⟩ := pair
      simp
  simp only [unserializeEscaped]
  split
  next hshort =>
    refine Acts.fail h ?_ rfl rfl
    rw [hcut]
    omega
  next hfits =>
    split
    next hstr =>
      refine Acts.fail h ?_ rfl rfl
      rw [hcut, hstr]
      simp
    next str c hstr =>
      have hc := unserializeStr_bounds hnul hle hstr
      simp only [hstr, some.injEq, Prod.mk.injEq, existsAndEq, and_true, true_and] at hcut
      split
      next hquote =>
        refine Acts.fail h ?_ rfl rfl
        rw [hcut]
        exact fun h => hquote h.2.2
      next hquote =>
        have hquote : mem c = byte '"' := by simpa using hquote
        refine closingQuote_acts hnul h (by omega) hc.2 hquote ?_
        rw [hcut]
        exact ⟨fun h => h.2.1, fun heq => ⟨by omega, heq, hquote⟩⟩

theorem unserializeArray_acts {elements : Nat} (hcut : ¬ (Event.called start hash).Cut user mem max)
    (hcall : CallsFrom user mem max (start + 1) call) (hlt : start < cursor) (hle : cursor ≤ max) :
    ∃ r, (do
        let r ← processNestedData mem call s.next false elements
          ({ s with p := cursor }.arrayInit rval)
        if !r.1 then return ⟨false, rval, r.2⟩
        let f := finishNestedData mem r.2
        return ⟨f.1, rval, f.2⟩) = some r ∧ Acts user mem max start r := by
  have hstart : Kept user mem max (start + 1) ({ s with p := cursor }.arrayInit rval) true :=
    h.kept hcut (by rfl) hlt hle
  obtain ⟨⟨ok, s'⟩, hrun, hkept⟩ := processNestedData_kept hcall s.next false elements hstart
  rw [hrun]
  cases ok with
  | false => exact ⟨⟨false, rval, s'⟩, rfl, Kept.acts hkept⟩
  | true => exact ⟨⟨_, rval, _⟩, rfl, Kept.acts (finishNestedData_kept hnul hkept)⟩

end

/-- The header of an object leaves room for the two bytes it has tested. -/
theorem objectHeader_le (hnul : mem max = 0) (hle : cursor ≤ max)
    {name : List UInt8} (h : objectHeader mem max start cursor = .ok name) :
    cursor + name.length + 2 ≤ max := by
  simp only [objectHeader] at h
  generalize parseUiv mem max (start + 2) = len at h
  split at h
  · cases h
  next hfits =>
    split at h
    · cases h
    next hquote =>
      split at h
      · cases h
      next hcolon =>
        split at h
        · cases h
        · cases h
          have hquote : mem (cursor + len) ≠ 0 := by
            intro hzero
            exact absurd (hzero ▸ hquote) (by decide)
          have hcolon : mem (cursor + len + 1) ≠ 0 := by
            intro hzero
            exact absurd (hzero ▸ hcolon) (by decide)
          have hfirst := lt_of_ne_zero hnul (by omega) hquote
          have hsecond := lt_of_ne_zero hnul hfirst hcolon
          simp only [readBytes, length_map, length_range]
          omega

/-- `object_custom` tests that its data ends before the end of the buffer. -/
theorem objectCustom_acts {ce : ClassEntry} (hnul : mem max = 0)
    (h : Entered user mem max start hash s)
    (hcut : ¬ (Event.called start hash).Cut user mem max)
    (hlt : start < s.p) (hle : s.p + 2 ≤ max) :
    Acts user mem max start (objectCustom user mem max ce start rval s) := by
  have hbounds := parseIv2_bounds hnul hle
  simp only [objectCustom]
  generalize parseIv2 mem max (s.p + 2) = n at hbounds ⊢
  split
  · exact Acts.fail h hcut rfl rfl
  next hfits =>
    split
    · exact Acts.fail h hcut rfl rfl
    next s' hs' =>
      have hspec : s'.trace = s.trace ∧ s'.p = n.2 + 2 := by
        split at hs'
        · obtain ⟨u, _, rfl⟩ := map_eq_some_iff.mp hs'
          exact ⟨rfl, rfl⟩
        split at hs'
        · cases hs'
        · cases hs'
          exact ⟨rfl, rfl⟩
      have hkept : Kept user mem max (start + 1) { s' with p := s'.p + n.1.toNat } true := by
        refine h.kept hcut hspec.1 ?_ ?_
        · change start < s'.p + n.1.toNat
          omega
        · change s'.p + n.1.toNat ≤ max
          omega
      exact Kept.acts (finishNestedData_kept hnul hkept)

theorem storeClassName_spec (name : List UInt8) : (storeClassName rval name s).trace = s.trace ∧
      (storeClassName rval name s).p = s.p := by
  rw [storeClassName]
  split <;> exact ⟨rfl, rfl⟩

theorem storeClassName_zval (name : List UInt8) (h : rval < s.next) :
    (storeClassName rval name s).zvals rval = s.zvals rval := by
  rw [storeClassName]
  split
  · exact Function.update_of_ne (ne_of_lt h) _ _
  · rfl

/-- An object that was created; `n` is its element count and the position
behind that.  Behind the end of the buffer the first key is not found. -/
theorem objectBody_acts {ce : ClassEntry} {n : Int × Nat} (hnul : mem max = 0)
    (hin : Entered user mem max start hash s) (hcall : CallsFrom user mem max (start + 1) call)
    (handle : Nat) (hvalue : (s.zvals rval).value = .object handle) (hp : s.p = n.2 + 2)
    (hlt : start < n.2)
    (hcut : (Event.called start hash).Cut user mem max ↔ n.1 ≤ 0 ∧ max < n.2 + 2 ∧
      ¬ (ce.wakeup = true ∧ user.wakeupThrows start = true)) :
    ∃ r, objectCommon2 user mem call ce start rval n.1 s = some r ∧ Acts user mem max start r := by
  by_cases hover : max < n.2 + 2
  · rw [objectCommon2]
    simp only [hvalue]
    cases hcount : n.1.toNat with
    | succ k =>
      have hsound := hin.sound (by rw [hcut]; omega)
      obtain ⟨key, hkey, hkept, hend⟩ :=
        hcall s.next false s.allocZval (by change start + 1 ≤ s.p; omega)
          (Nat.lt_succ_self s.next) hsound
      have hok : key.ok = false := by
        refine Bool.eq_false_iff.mpr fun hok => ?_
        have hbefore : s.p < max := hend hok
        omega
      refine ⟨⟨false, rval, key.s⟩, ?_, Kept.acts (Kept.fail hkept.sound)⟩
      rw [processNestedData, hkey]
      change Option.bind (if !key.ok then some (false, key.s) else _) _ = _
      rw [hok]
      rfl
    | zero =>
      by_cases hthrows : ce.wakeup = true ∧ user.wakeupThrows start = true
      · refine ⟨_, if_pos hthrows, Acts.fail hin (by rw [hcut]; tauto) ?_ rfl⟩
        split <;> rfl
      · refine ⟨_, if_neg hthrows, ?_⟩
        obtain ⟨old, htrace, -, -⟩ := hin
        -- The byte behind the elements is looked at behind the end.
        have hcalled := hcut.mpr ⟨by omega, hover, hthrows⟩
        have hpast : ¬ (Event.looked s.p).Within max := by
          change ¬ s.p ≤ max
          omega
        have hseen : ∀ s₁ : UState, s₁.trace = s.trace ∧ s₁.p = s.p →
            Acts user mem max start ⟨(finishNestedData mem s₁).1, rval,
              (finishNestedData mem s₁).2⟩ := by
          rintro s₁ ⟨htrace₁, hp₁⟩
          refine ⟨fun _ => ?_, ?_⟩
          · change start < s₁.p + 1
            omega
          · refine Sound.of_cut (?_ : .looked s.p ∈ _) hpast (?_ : .called start hash ∈ _) hcalled
            all_goals
              change _ ∈ ite _ (_ :: .looked s₁.p :: s₁.trace) (.looked s₁.p :: s₁.trace)
              rw [htrace₁, hp₁, htrace]
              split <;> simp
        apply hseen
        split <;> exact ⟨rfl, rfl⟩
  · obtain ⟨r, hrun, hkept⟩ := objectCommon2_kept ce n.1 start rval hnul hcall
      (hin.kept (by rw [hcut]; omega) rfl (by omega) (by omega))
    exact ⟨r, hrun, hkept.acts⟩

theorem unserializeObject_acts (hnul : mem max = 0)
    (h : Entered user mem max start true s) (hcall : CallsFrom user mem max (start + 1) call)
    (hrval : rval < s.next) (hlex : lexToken mem max start = some (.object, cursor))
    (hlt : start < cursor) (hle : cursor ≤ max) :
    ∃ r, unserializeObject user mem max call false start cursor rval s = some r ∧
      Acts user mem max start r := by
  have hcut : (Event.called start true).Cut user mem max ↔ cutObject user mem max start = true := by
    simp [Event.Cut, cutString, hlex]
  simp only [unserializeObject]
  simp only [cutObject, hlex] at hcut
  cases hheader : objectHeader mem max start cursor with
  | error c => exact ⟨_, rfl, Acts.fail h (by simp [hcut, hheader]) (by rfl) rfl⟩
  | ok name =>
    have hroom := objectHeader_le hnul hle hheader
    have hbounds := parseIv2_bounds hnul hroom
    dsimp only
    cases hclass : classOf user start name with
    | none => exact ⟨_, rfl, Acts.fail h (by simp [hcut, hheader, hclass]) (by rfl) rfl⟩
    | some found =>
      obtain ⟨ce, known⟩ := found
      simp only [hheader, hclass] at hcut
      simp only [Bool.false_eq_true, if_false]
      -- The name of an unknown class becomes a property of the new object.
      have hstored : ∀ s₁ : UState, s₁.trace = s.trace →
          (if known = true then s₁ else storeClassName rval name s₁).trace = s.trace := by
        intro s₁ h₁
        split
        · exact h₁
        · exact (storeClassName_spec name).1.trans h₁
      simp only [objectCommon1]
      cases hserialize : ce.serialize with
      | true =>
        exact ⟨_, rfl, Acts.fail h (by simp [hcut, hserialize]) (hstored _ rfl) rfl⟩
      | false =>
        cases habstract : ce.abstract with
        | true =>
          exact ⟨_, rfl, Acts.fail h (by simp [hcut, habstract]) (hstored _ rfl) rfl⟩
        | false =>
          have hnext : rval < s.next + 1 := Nat.lt_succ_of_lt hrval
          refine objectBody_acts hnul (h.congr (hstored _ rfl)) hcall s.next ?_ ?_ (by omega) ?_
          · cases known with
            | true => simp [UState.objectInit, UState.setZval]
            | false =>
              rw [if_neg (by simp), storeClassName_zval name hnext]
              simp [UState.objectInit, UState.setZval]
          · cases known with
            | true => rfl
            | false => exact (storeClassName_spec name).2
          · rw [hcut, decide_eq_true_iff]
            simp [hserialize, habstract]

/-- `C:` is an object with `object_custom` for its data. -/
theorem unserializeCustom_acts (hnul : mem max = 0) (h : Entered user mem max start true s)
    (hlex : lexToken mem max start = some (.custom, cursor))
    (hlt : start < cursor) (hle : cursor ≤ max) :
    ∃ r, unserializeObject user mem max call true start cursor rval s = some r ∧
      Acts user mem max start r := by
  have hcut : ¬ (Event.called start true).Cut user mem max :=
    not_cut hlex (by simp) (by simp) (by simp)
  simp only [unserializeObject]
  cases hheader : objectHeader mem max start cursor with
  | error c => exact ⟨_, rfl, Acts.fail h hcut (by rfl) rfl⟩
  | ok name =>
    have hroom := objectHeader_le hnul hle hheader
    dsimp only
    cases hclass : classOf user start name with
    | none => exact ⟨_, rfl, Acts.fail h hcut (by rfl) rfl⟩
    | some found =>
      obtain ⟨ce, known⟩ := found
      simp only [if_true]
      have hcustom : Acts user mem max start (objectCustom user mem max ce start rval
          { s.setZval rval { s.zvals rval with isRef := false } with
            p := cursor + name.length }) :=
        objectCustom_acts hnul (h.congr rfl) hcut (by change start < cursor + _; omega) hroom
      generalize objectCustom user mem max ce start rval _ = r at hcustom ⊢
      split
      · obtain ⟨htrace, hp⟩ : (storeClassName rval name r.s).trace = r.s.trace ∧
            (storeClassName rval name r.s).p = r.s.p :=
          storeClassName_spec name
        refine ⟨_, rfl, fun hok => hp ▸ hcustom.lt hok, ?_⟩
        simpa only [htrace, hp] using hcustom.sound
      · exact ⟨r, rfl, hcustom⟩

/-- The number that `o:` reads again is the one of its token. -/
theorem lexToken_oldObject (h : lexToken mem max start = some (.oldObject, cursor)) :
    cursor = (parseIv2 mem max (start + 2)).2 + 2 := by
  have hbody : lexBody mem start (matchIv mem max) ":\"" = some cursor := by
    iterate 9
      rcases ite_eq_some h with ⟨-, h⟩ | ⟨-, h⟩
      · obtain ⟨_, _, h⟩ := map_eq_some_iff.mp h
        cases h
    rcases ite_eq_some h with ⟨-, h⟩ | ⟨-, h⟩
    · obtain ⟨_, hlex, h⟩ := map_eq_some_iff.mp h
      cases h
      exact hlex
    iterate 2
      rcases ite_eq_some h with ⟨-, h⟩ | ⟨-, h⟩
      · obtain ⟨_, _, h⟩ := map_eq_some_iff.mp h
        cases h
    cases h
  obtain ⟨c, hc, hbody⟩ := bind_eq_some_iff.mp hbody
  obtain ⟨e, he, hbody⟩ := bind_eq_some_iff.mp hbody
  have hcolon : c = start + 2 := by
    rw [matchText] at hc
    split at hc
    · cases hc
      rfl
    · cases hc
  have hclose : cursor = e + 2 := by
    rw [matchText] at hbody
    split at hbody
    · cases hbody
      rfl
    · cases hbody
  have hnumber : e = (parseIv2 mem max c).2 := by
    rw [matchIv, matchDigits] at he
    split at he
    · cases he
      rfl
    · cases he
  rw [hclose, hnumber, hcolon]

theorem unserializeToken_acts (hnul : mem max = 0) (hp : s.p = start)
    (h : Entered user mem max start hash s) (hstart : start < max) (hrval : rval < s.next)
    (hcall : CallsFrom user mem max (start + 1) call) :
    ∃ r, unserializeToken user mem max call start rval hash s = some r ∧
      Acts user mem max start r := by
  rw [unserializeToken]
  cases hlex : lexToken mem max start with
  | none =>
    refine ⟨_, rfl, Acts.fail h ?_ (by rfl) rfl⟩
    simp [Event.Cut, cutString, cutObject, hlex]
  | some pair =>
    obtain ⟨token, cursor⟩ := pair
    have hbounds := lexToken_bounds hnul hstart token cursor hlex
    have hlt : start < cursor := by omega
    have hle := hbounds.2
    cases token with
    | refTo | copyOf =>
      exact ⟨_, rfl, unserializeRef_acts h (not_cut hlex (by simp) (by simp) (by simp)) hlt hle⟩
    | null | bool | long | double =>
      exact ⟨_, rfl, Acts.atom h (not_cut hlex (by simp) (by simp) (by simp)) (by rfl) hlt hle⟩
    | string => exact ⟨_, rfl, unserializeString_acts hnul h hlex hlt hle⟩
    | escaped => exact ⟨_, rfl, unserializeEscaped_acts hnul h hlex hlt hle⟩
    | array =>
      have hcut : ¬ (Event.called start hash).Cut user mem max :=
        not_cut hlex (by simp) (by simp) (by simp)
      dsimp only
      split
      · exact ⟨_, rfl, Acts.fail h hcut (by rfl) rfl⟩
      · exact unserializeArray_acts hnul h hcut hcall hlt hle
    | oldObject =>
      have hcut : ¬ (Event.called start hash).Cut user mem max :=
        not_cut hlex (by simp) (by simp) (by simp)
      dsimp only
      split
      · exact ⟨_, rfl, Acts.fail h hcut (by rfl) rfl⟩
      · have hafter : (objectCommon1 mem max standardClass rval s).2.2.p = cursor := by
          rw [lexToken_oldObject hlex, ← hp]
          rfl
        obtain ⟨r, hrun, hkept⟩ := objectCommon2_kept standardClass
          (objectCommon1 mem max standardClass rval s).1 start rval hnul hcall
          (h.kept hcut (by rfl) (by omega) (le_of_eq_of_le hafter hle))
        exact ⟨r, hrun, hkept.acts⟩
    | object =>
      cases hash with
      | false =>
        refine ⟨_, rfl, Acts.fail h ?_ (by rfl) rfl⟩
        simp [Event.Cut, cutString, hlex]
      | true => exact unserializeObject_acts hnul h hcall hrval hlex hlt hle
    | custom =>
      cases hash with
      | false =>
        exact ⟨_, rfl, Acts.fail h (not_cut hlex (by simp) (by simp) (by simp)) (by rfl) rfl⟩
      | true => exact unserializeCustom_acts hnul h hlex hlt hle

/-- The call adds its own return to what its action leaves. -/
theorem Acts.kept {low : Nat} (h : Acts user mem max start r) (hlow : low ≤ start) :
    Kept user mem max low
      (if r.ok then { r with s := r.s.note (.returned start r.s.p) } else r).s r.ok := by
  obtain ⟨hlt, hsound⟩ := h
  cases hok : r.ok with
  | false =>
    rw [hok] at hsound
    exact Kept.fail hsound
  | true =>
    rw [hok] at hsound hlt
    refine ⟨hsound, fun _ => le_trans hlow (le_of_lt (hlt rfl)), fun _ hnone => ?_⟩
    exact hsound.mpr hnone (.returned start r.s.p) mem_cons_self

/-- The step lemma for a call, by induction on the depth: nested calls start
behind their opening token. -/
theorem phpVarUnserialize_kept {low : Nat} (hash : Bool) (hnul : mem max = 0) (fuel : Nat)
    (hfuel : max - s.p < fuel) (hlow : low ≤ s.p) (hrval : rval < s.next)
    (hs : Sound user mem max s.trace) :
    ∃ r, phpVarUnserialize user mem max fuel rval hash s = some r ∧
      Kept user mem max low r.s r.ok ∧ (r.ok = true → s.p < max) := by
  induction fuel generalizing rval hash s low with
  | zero => exact absurd hfuel (Nat.not_lt_zero _)
  | succ fuel ih =>
    rw [phpVarUnserialize]
    by_cases hend : max ≤ s.p
    · rw [if_pos hend]
      exact ⟨_, rfl, Kept.fail hs, by simp⟩
    · rw [if_neg hend]
      have hcall : CallsFrom user mem max (s.p + 1) (phpVarUnserialize user mem max fuel) :=
        fun rval hash s' hlow hrval hs => ih hash (by omega) hlow hrval hs
      -- Pushing the slot leaves the cursor and the trace alone.
      have hpushed : ∀ s₀ : UState, s₀.trace = .called s.p hash :: s.trace → s₀.p = s.p →
          s₀.next = s.next → ∃ r, unserializeToken user mem max
            (phpVarUnserialize user mem max fuel) s.p rval hash s₀ = some r ∧
            Acts user mem max s.p r :=
        fun s₀ htrace hp hnext => unserializeToken_acts hnul hp
          ⟨s.trace, htrace, by omega, hs⟩ (by omega) (hnext ▸ hrval) hcall
      obtain ⟨r, hrun, hacts⟩ : ∃ r, unserializeToken user mem max
          (phpVarUnserialize user mem max fuel) s.p rval hash
          (if hash ∧ mem s.p ≠ byte 'R' then (s.note (.called s.p hash)).pushSlot rval
            else s.note (.called s.p hash)) = some r ∧ Acts user mem max s.p r := by
        split
        · exact hpushed _ rfl rfl rfl
        · exact hpushed _ rfl rfl rfl
      have hkept := hacts.kept hlow
      refine ⟨if r.ok then { r with s := r.s.note (.returned s.p r.s.p) } else r, ?_, ?_,
        fun _ => by omega⟩
      · dsimp only
        rw [hrun]
        change (if r.ok = true then some _ else some r) = _
        split <;> rfl
      · cases hok : r.ok <;> simpa [hok] using hkept

end Actions

/-! The whole parse. -/

/-- The cursor stays within the buffer, in all calls that return successfully
and at all bytes looked at behind an element, exactly if no call comes to a
cut string or a cut object. -/
theorem phpVarUnserialize_within_iff (user : UserCode) (mem : Nat → UInt8)
    (max rval fuel : Nat) (hash : Bool) (s : UState) (hnul : mem max = 0)
    (hfuel : max - s.p < fuel) (hrval : rval < s.next) (htrace : s.trace = []) :
    ∃ r, phpVarUnserialize user mem max fuel rval hash s = some r ∧
      ((∀ e ∈ r.s.trace, e.Within max) ↔ ∀ e ∈ r.s.trace, ¬ e.Cut user mem max) := by
  have hsound : Sound user mem max s.trace := by
    rw [htrace]
    simp [Sound]
  obtain ⟨r, hrun, hkept, -⟩ :=
    phpVarUnserialize_kept hash hnul fuel hfuel (Nat.zero_le _) hrval hsound
  exact ⟨r, hrun, hkept.sound⟩

/-- A text and the NUL bytes behind it. -/
def buffer (text : String) (i : Nat) : UInt8 :=
  (text.toList.map byte).getD i 0

/-- No class is known, and no user code does anything. -/
def noUserCode : UserCode where
  lookupClass _ _ := .incomplete
  unserialize _ _ := none
  wakeup _ s := s
  wakeupThrows _ := false

/-- The state at the start, with the zval `0` for the result. -/
def unserializeStart : UState where
  p := 0
  slots := []
  zvals _ := ⟨.null, false⟩
  tables _ := OrderedMap.empty
  objects _ := ⟨standardClass, 0⟩
  next := 1
  trace := []

theorem phpVarUnserialize_within_iff_array :
    ∃ r, phpVarUnserialize noUserCode (buffer "a:1:\x7bi:0;s:1:\"a\";\x7d") 18 19
        0 true unserializeStart = some r ∧ ((∀ e ∈ r.s.trace, e.Within 18) ↔ ∀ e ∈ r.s.trace,
        ¬ e.Cut noUserCode (buffer "a:1:\x7bi:0;s:1:\"a\";\x7d") 18) :=
  phpVarUnserialize_within_iff noUserCode _ 18 0 19 true unserializeStart
    (by decide) (by decide) (by decide) rfl

/-- `s:1:"a"` without its semicolon: success with the cursor one behind the
NUL; and as the last element of an array, whose closing brace is then looked
for behind the NUL. -/
theorem string_without_semicolon_passes_max :
    (phpVarUnserialize noUserCode (buffer "s:1:\"a\"") 7 8 0 true
        unserializeStart).map (fun r => (r.ok, r.s.p)) = some (true, 8) ∧
      (phpVarUnserialize noUserCode (buffer "a:1:\x7bi:0;s:1:\"a\"") 16 17 0
        true unserializeStart).map (fun r => r.s.trace.head?) = some (some (.looked 17)) := by
  decide

end PhpEngine
