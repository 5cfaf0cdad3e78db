/-
The filters `convert.base64-encode` and `convert.base64-decode`, one behind the other.
-/
import PhpEngine.Base64Decoding
import PhpEngine.Base64Encoding

namespace PhpEngine

open List Base64Encode Base64Decode

variable {lineLen : Nat} {lbchars : Option (List UInt8)}

theorem decodeChars_skip {l : List UInt8} (h : ∀ b ∈ l, b64Dec b = 64) (rest : List UInt8) :
    decodeChars 0 0 false (l ++ rest) = decodeChars 0 0 false rest := by
  induction l with
  | nil => rfl
  | cons b l ih =>
    obtain ⟨hb, hl⟩ := forall_mem_cons.mp h
    rw [cons_append, decodeChars, hb, if_neg (by decide), if_neg (by decide), ih hl]

theorem decodeChars_encodeFrom (hskip : ∀ b ∈ lbchars.getD [], b64Dec b = 64) (lineCcnt : Nat)
    (f : List UInt8) :
    decodeChars 0 0 false (encodeFrom lineLen lbchars lineCcnt f) = (f, true) := by
  have hbreak (n : Nat) (text : List UInt8) : decodeChars 0 0 false
      ((breakAt lineLen lbchars n).1 ++ text) = decodeChars 0 0 false text := by
    refine decodeChars_skip (fun b hb => hskip b ?_) text
    cases lbchars with
    | none => exact hb
    | some lb =>
      rw [breakAt] at hb
      split at hb
      · exact hb
      · cases hb
  fun_induction encodeFrom lineLen lbchars lineCcnt f with
  | case1 n a b c rest ih =>
    rw [hbreak, group, base64Char_first, base64Char_second, base64Char_third, base64Char_fourth]
    simp only [cons_append, nil_append]
    rw [decodeChars_group, ih]
  | case2 n a b => rw [hbreak, ← phpBase64Encode_last (by simp), decodeChars_encode]
  | case3 n a => rw [hbreak, ← phpBase64Encode_last (by simp), decodeChars_encode]
  | case4 => rfl

/-- What the encoder has written, cut in whatever way, is decoded to the bytes that it was given,
for all sizes of the buffers of both.  The line breaks must be of bytes that the decoder skips. -/
theorem base64Decoder_base64Encoder (hlen : lbchars.isSome → 4 ≤ lineLen)
    (hskip : ∀ b ∈ lbchars.getD [], b64Dec b = 64) {portions cut : List (List UInt8)}
    {rooms : List Nat} {ok : Bool}
    (hrun : base64Encoder.drive rooms (ctor lineLen lbchars) portions = some (cut.flatten, ok)) :
    (∀ rooms o, base64Decoder.drive rooms ctor cut = some o → o = (portions.flatten, true)) ∧
    ∀ rooms, Ample 1 rooms → ∃ n, base64Decoder.drive ((List.range n).map rooms) ctor cut =
      some (portions.flatten, true) := by
  have hctor : Has lineLen lbchars (ctor lineLen lbchars) := ⟨Nat.zero_le _, rfl, rfl, hlen⟩
  have hreads := base64Encoder_reads lineLen lbchars
  have htext := congrArg Prod.fst (hreads.drive_eq (hreads.fit hctor portions) hrun)
  have hdecode : decodeFrom ctor cut.flatten = (portions.flatten, true) := by
    rw [show cut.flatten = _ from htext]
    exact decodeChars_encodeFrom hskip _ _
  have hfit := base64Decoder_reads.fit
    (s := ctor) ⟨⟨by decide, .inl rfl, rfl, by decide⟩, by decide⟩ cut
  rw [← hdecode]
  exact ⟨fun rooms o h => base64Decoder_reads.drive_eq hfit h,
    fun rooms hample => base64Decoder_reads.drive_ends hample cut hfit⟩

/-- Seven bytes in lines of four characters; the decoder gets all at once. -/
theorem base64Decoder_base64Encoder_seven :
    ∃ n, base64Decoder.drive ((List.range n).map fun _ => 1) Base64Decode.ctor
      [base64Text 4 (some [13, 10]) [1, 2, 3, 4, 5, 6, 7]] = some ([1, 2, 3, 4, 5, 6, 7], true) :=
  (@base64Decoder_base64Encoder 4 (some [13, 10]) (fun _ => le_rfl)
    (forall_mem_cons.mpr ⟨by decide, forall_mem_cons.mpr ⟨by decide, forall_mem_nil _⟩⟩)
    [[1, 2, 3, 4, 5, 6, 7]] [base64Text 4 (some [13, 10]) [1, 2, 3, 4, 5, 6, 7]]
    [20, 20] true (by decide)).2 (fun _ => 1) fun k => ⟨k, le_rfl, le_rfl⟩

end PhpEngine
