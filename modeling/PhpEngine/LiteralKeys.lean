/-
The keys of the merging loop share one hash table.  An index has no bytes, the
key of a double carries the plain hash of its bytes and that of a name its
hash with the flags added, so that keys of different kinds never meet.
-/
import PhpEngine.CompactLiterals

namespace PhpEngine

variable {α : Type}

theorem LiteralKind.code_bounds (kind : LiteralKind) :
    kind.code % 256 = 0 ∧ 0 < kind.code ∧ kind.code < 4096 := by
  cases kind <;> decide

theorem LiteralKind.code_injective {kind kind' : LiteralKind}
    (h : kind.code = kind'.code) : kind = kind' := by
  cases kind <;> cases kind' <;> first | rfl | cases h

theorem LiteralFlags.word_fields (flags : LiteralFlags) : flags.related.val = flags.word % 16 ∧
      flags.slots.val = flags.word / 16 % 16 ∧ flags.kind.code = flags.word / 256 % 16 * 256 ∧
      flags.mayMerge = decide (flags.word / 4096 % 2 = 1) ∧
      flags.exObj = decide (flags.word / 8192 % 2 = 1) ∧
      flags.exClass = decide (flags.word / 16384 % 2 = 1) := by
  obtain ⟨kind, merge, obj, cls, slots, related⟩ := flags
  have hkind := kind.code_bounds
  simp only [LiteralFlags.word]
  refine ⟨?_, ?_, ?_, ?_, ?_, ?_⟩ <;> cases merge <;> cases obj <;> cases cls <;> simp <;> omega

theorem LiteralFlags.word_injective {flags flags' : LiteralFlags}
    (h : flags.word = flags'.word) : flags = flags' := by
  obtain ⟨hrelated, hslots, hcode, hmerge, hobj, hcls⟩ := flags.word_fields
  obtain ⟨hrelated', hslots', hcode', hmerge', hobj', hcls'⟩ :=
    flags'.word_fields
  rw [h] at hrelated hslots hcode hmerge hobj hcls
  apply LiteralFlags.ext
  · exact LiteralKind.code_injective (hcode.trans hcode'.symm)
  · exact hmerge.trans hmerge'.symm
  · exact hobj.trans hobj'.symm
  · exact hcls.trans hcls'.symm
  · exact Fin.ext (hslots.trans hslots'.symm)
  · exact Fin.ext (hrelated.trans hrelated'.symm)

theorem LiteralFlags.word_bounds (flags : LiteralFlags) :
    0 < flags.word ∧ flags.word < ulongMod := by
  obtain ⟨kind, merge, obj, cls, slots, related⟩ := flags
  have hkind := kind.code_bounds
  have hmod : ulongMod = 2 ^ 64 := rfl
  simp only [LiteralFlags.word]
  refine ⟨by omega, ?_⟩
  cases merge <;> cases obj <;> cases cls <;> simp <;> omega

theorem doubleBytes_injective {x y : UInt64} (h : doubleBytes x = doubleBytes y) : x = y := by
  have hdigit : ∀ k < 8, x.toNat / 256 ^ k % 256 = y.toNat / 256 ^ k % 256 := by
    intro k hk
    have hat := congrArg (fun bytes => (bytes.getD k 0).toNat) h
    simpa [doubleBytes, hk, List.getD] using hat
  have hmod : ∀ k ≤ 8, x.toNat % 256 ^ k = y.toNat % 256 ^ k := by
    intro k
    induction k with
    | zero => simp [Nat.mod_one]
    | succ k ih =>
      intro hk
      rw [Nat.mod_pow_succ, Nat.mod_pow_succ, ih (by omega), hdigit k hk]
  have h := hmod 8 le_rfl
  rw [show 256 ^ 8 = 2 ^ 64 by rfl, Nat.mod_eq_of_lt x.toNat_lt, Nat.mod_eq_of_lt y.toNat_lt] at h
  exact UInt64.toNat_inj.mp h

/-- Flags change a hash, and different flags change it differently. -/
theorem hash_add_word_ne (h : Nat) (flags : LiteralFlags) : (h + flags.word) % ulongMod ≠ h := by
  obtain ⟨hpos, hword⟩ := flags.word_bounds
  unfold ulongMod at *
  omega

theorem word_eq_of_hash_eq (h : Nat) {flags flags' : LiteralFlags}
    (heq : (h + flags.word) % ulongMod = (h + flags'.word) % ulongMod) : flags = flags' := by
  apply LiteralFlags.word_injective
  obtain ⟨-, hword⟩ := flags.word_bounds
  obtain ⟨-, hword'⟩ := flags'.word_bounds
  unfold ulongMod at *
  omega

namespace LiteralKey

/-- The keys of texts are never empty. -/
def Valid : LiteralKey → Prop
  | .text _ arKey => arKey ≠ []
  | _ => True

/-- The bucket of a key that is kept in the hash table. -/
def bucket : LiteralKey → Option BucketKey
  | .null => none
  | .bool _ => none
  | .long n => some (longBucket n)
  | .double bits => some (doubleBucket bits)
  | .text flags arKey => some (textBucket flags arKey)

theorem bucket_injective {key key' : LiteralKey} (hvalid : key.Valid)
    (hvalid' : key'.Valid) {bucket : BucketKey}
    (h : key.bucket = some bucket) (h' : key'.bucket = some bucket) : key = key' := by
  have hbytes : ∀ bits, doubleBytes bits ≠ [] := fun bits => by
    simp [doubleBytes]
  rw [← h] at h'
  cases key <;> cases key' <;> simp only [LiteralKey.bucket, reduceCtorEq, Option.some.injEq,
      Prod.mk.injEq, longBucket, doubleBucket, textBucket, List.nil_eq,
      hbytes, and_false, and_true, LiteralKey.Valid] at h h' hvalid hvalid'
  case long.long n n' =>
      rw [UInt64.toNat_inj] at h'
      have heq : n' = n := by
        have := congrArg UInt64.toInt64 h'
        simpa using this
      rw [heq]
  case long.text => exact absurd h'.2 hvalid'
  case double.double => rw [doubleBytes_injective h'.2]
  case double.text bits flags arKey =>
      rw [h'.2] at h'
      exact absurd h'.1 (hash_add_word_ne _ flags)
  case text.long => exact absurd h'.2.symm (Ne.symm hvalid)
  case text.double flags arKey bits =>
      rw [h'.2] at h'
      exact absurd h'.1.symm (hash_add_word_ne _ flags)
  case text.text flags arKey flags' arKey' =>
      obtain ⟨hhash, rfl⟩ := h'
      rw [word_eq_of_hash_eq _ hhash]

end LiteralKey

theorem lookup_hashAdd (hash : List (BucketKey × Nat)) (key key' : BucketKey) (pos : Nat) :
    (hashAdd hash key pos).lookup key' = if key = key' then (hash.lookup key').or (some pos)
      else hash.lookup key' := by
  unfold hashAdd
  cases hfind : hash.lookup key with
  | some old =>
    by_cases hkey : key = key'
    · subst hkey
      simp [hfind]
    · simp [hkey]
  | none =>
    by_cases hkey : key = key'
    · subst hkey
      simp [hfind]
    · have hne : (key' == key) = false :=
        beq_eq_false_iff_ne.mpr (Ne.symm hkey)
      simp [hkey, List.lookup_cons, hne]

namespace MergeState

theorem find_of_bucket (s : MergeState α) {key : LiteralKey}
    {bucket : BucketKey} (h : key.bucket = some bucket) : s.find key = s.hash.lookup bucket := by
  cases key <;> cases h <;> rfl

/-- A key that is entered is found at the end of the new table, unless it was
known before; nothing else changes. -/
theorem find_enter (s : MergeState α) {key key' : LiteralKey}
    (hvalid : key.Valid) (hvalid' : key'.Valid) (hnew : key.bucket = none → s.find key = none) :
    (s.enter key).find key' = if key = key' then (s.find key').or (some s.j) else s.find key' := by
  cases hbucket : key.bucket with
  | none =>
    have hnone := hnew hbucket
    cases key with
    | null =>
      cases key' with
      | bool b' => cases b' <;> rfl
      | _ => simp_all [enter, find]
    | bool b =>
      cases b <;> cases key' with
      | bool b' => cases b' <;> simp_all [enter, find]
      | _ => simp [enter, find]
    | _ => cases hbucket
  | some bucket =>
    have henter : (s.enter key).hash = hashAdd s.hash bucket s.j := by
      cases key <;> cases hbucket <;> rfl
    cases hbucket' : key'.bucket with
    | none =>
      have hne : key ≠ key' := by
        rintro rfl
        rw [hbucket] at hbucket'
        cases hbucket'
      rw [if_neg hne]
      cases key <;> cases hbucket <;> cases key' with
      | bool b => cases b <;> rfl
      | null => rfl
      | _ => cases hbucket'
    | some bucket' =>
      rw [find_of_bucket _ hbucket', find_of_bucket _ hbucket', henter, lookup_hashAdd]
      by_cases hkey : key = key'
      · subst hkey
        rw [hbucket] at hbucket'
        rw [if_pos rfl, if_pos (Option.some.inj hbucket')]
      · have hne : bucket ≠ bucket' := by
          rintro rfl
          exact hkey (LiteralKey.bucket_injective hvalid hvalid' hbucket hbucket')
        rw [if_neg hkey, if_neg hne]

end MergeState

end PhpEngine
