/-
Runs of the filter `convert.quoted-printable-encode`: what one call does, and
from it when every run gives back the bytes.
-/
import PhpEngine.QprintEncoding

namespace PhpEngine

open List

namespace QprintEncode

variable {inst' : QprintEncode} {ocnt : Nat} {written seen : List UInt8}
    {portions : List (List UInt8)}

section Call

variable {binary : Bool} {inst : QprintEncode} {input : List UInt8}

/-- What a call does that had room for `ocnt` bytes and had already written
something. -/
structure Called (binary : Bool) (inst : QprintEncode) (input : List UInt8)
    (ocnt : Nat) (written : List UInt8)
    (r : ConvResult QprintEncode UInt8 UInt8) : Prop where
  fits : Fits binary r.state
  writes : ∃ new bytes extra, r.written = written ++ new ∧ Writes new bytes ∧ new.length ≤ ocnt ∧
    bytes ++ pending r.state r.left = extra ++ pending inst input ∧
    (Safe inst input → extra = []) ∧
    (¬ Safe inst input → r.status = .success → extra ≠ [])
  safe : Safe inst input → Safe r.state r.left
  status : r.status = .success ∧ r.left = [] ∧ r.state.lbCnt ≤ r.state.lbPtr ∨
    r.status = .tooBig ∧ pending r.state r.left ≠ []
  linked : binary = false → ∃ consumed, input = consumed ++ r.left ∧
    ∀ seen, Linked inst seen → Linked r.state (seen ++ consumed)
  load : (pending r.state r.left).length * 2 + r.state.short ≤
    (pending inst input).length * 2 + inst.short
  less : r.status = .tooBig → 3 ≤ ocnt → (pending r.state r.left).length * 2 + r.state.short <
      (pending inst input).length * 2 + inst.short
  ample : (pending inst input).length * 9 + inst.short * 3 ≤ ocnt → r.status = .success

theorem pending_congr (hptr : inst'.lbPtr = inst.lbPtr)
    (hcnt : inst'.lbCnt = inst.lbCnt) (input : List UInt8) :
    pending inst' input = pending inst input := by
  rw [pending, pending, hptr, hcnt]

theorem Called.step {input' new bytes : List UInt8}
    {r : ConvResult QprintEncode UInt8 UInt8} (h : Fits binary inst)
    (hmove : Move binary inst input inst' input' bytes)
    (hwrites : Writes new bytes) (hroom : new.length ≤ ocnt)
    (hload : (pending inst' input').length * 2 + inst'.short ≤
      (pending inst input).length * 2 + inst.short)
    (hless : new ≠ [] → (pending inst' input').length * 2 + inst'.short <
      (pending inst input).length * 2 + inst.short)
    (hspent : new.length + (pending inst' input').length * 9 +
      inst'.short * 3 ≤ (pending inst input).length * 9 + inst.short * 3)
    (hnext : Called binary inst' input' (ocnt - new.length) (written ++ new)
      r) : Called binary inst input ocnt written r where
  fits := hnext.fits
  writes := by
    obtain ⟨new', bytes', extra', hwritten, hwrites', hroom', heq, hextra, -⟩ :=
      hnext.writes
    rw [hextra hmove.safe, nil_append] at heq
    have htext : r.written = written ++ (new ++ new') := by
      rw [hwritten, append_assoc]
    have hlength : (new ++ new').length ≤ ocnt := by
      rw [length_append]
      omega
    by_cases hsafe : Safe inst input
    · refine ⟨new ++ new', bytes ++ bytes', [], htext,
        hwrites.append hwrites', hlength, ?_, fun _ => rfl,
        fun hrisky => absurd hsafe hrisky⟩
      rw [append_assoc, heq, hmove.pending_eq hsafe h]
      rfl
    · refine ⟨new ++ new', bytes ++ bytes', [13], htext,
        hwrites.append hwrites', hlength, ?_, fun hsafe' => absurd hsafe' hsafe,
        fun _ _ => nofun⟩
      rw [append_assoc, heq, hmove.pending_unsafe hsafe]
      rfl
  safe := fun _ => hnext.safe hmove.safe
  status := hnext.status
  linked := by
    rintro rfl
    obtain ⟨consumed, hinput, hlinked⟩ := hmove.linked h
    obtain ⟨consumed', hinput', hlinked'⟩ := hnext.linked rfl
    refine ⟨consumed ++ consumed', ?_, fun seen hseen => ?_⟩
    · rw [hinput, hinput', append_assoc]
    · rw [← append_assoc]
      exact hlinked' _ (hlinked seen hseen)
  load := le_trans hnext.load hload
  less := by
    intro hbig hthree
    by_cases hnew : new = []
    · have hrest := hnext.less hbig (by rw [hnew]; exact hthree)
      exact lt_of_lt_of_le hrest hload
    · exact lt_of_le_of_lt hnext.load (hless hnew)
  ample := by
    intro hample
    exact hnext.ample (by omega)

theorem convertLoop_called (h : Fits binary inst) {fuel trailWs : Nat}
    (hfuel : turnsLeft inst input trailWs < fuel) (ocnt : Nat) (written : List UInt8) :
    Called binary inst input ocnt written (convertLoop fuel inst input trailWs ocnt written) := by
  induction fuel generalizing inst input trailWs ocnt written with
  | zero => nomatch hfuel
  | succ fuel ih =>
    have hturn := turn_turned h input trailWs ocnt
    rw [convertLoop]
    cases hstep : inst.turn ocnt input trailWs with
    | out status inst' input' new =>
      rw [hstep] at hturn
      cases hturn with
      | done hinput hclosed =>
        subst hinput
        have hsafe : Safe inst [] := fun _ _ => nofun
        refine ⟨h, ⟨[], [], [], rfl, writes_nil, Nat.zero_le _, rfl,
          fun _ => rfl, fun hrisky => absurd hsafe hrisky⟩,
          fun _ => hsafe, .inl ⟨rfl, rfl, hclosed⟩, fun _ => ⟨[], rfl, ?_⟩,
          le_rfl, nofun, fun _ => rfl⟩
        intro seen hlinked
        rwa [append_nil]
      | stop hfits hptr hcnt hpending hwrites hroom hfull hnone hsome =>
        have hsame := pending_congr hptr hcnt input
        have hpos := length_pos_of_ne_nil hpending
        refine ⟨hfits, ⟨new, [], [], rfl, hwrites, hroom, ?_,
          fun _ => rfl, nofun⟩, ?_, .inr ⟨rfl, ?_⟩,
          fun _ => ⟨[], rfl, ?_⟩, ?_, ?_, ?_⟩
        · rw [hsame]
        · intro hsafe hptr' hcnt'
          exact hsafe (hptr ▸ hptr') (hcnt ▸ hcnt')
        · rw [hsame]
          exact hpending
        · intro seen hlinked
          rw [Linked, append_nil, hcnt]
          exact hlinked
        · rw [hsame]
          by_cases hnew : new = []
          · rw [(hnone hnew).1]
          · have := hsome hnew
            dsimp only
            omega
        · intro _ hthree
          rw [hsame]
          by_cases hnew : new = []
          · have := (hnone hnew).2
            omega
          · have := hsome hnew
            dsimp only
            omega
        · intro hample
          omega
    | go inst' input' trailWs' new =>
      rw [hstep] at hturn
      cases hturn with
      | go hfits hmove hwrites hroom hturns hload hless hspent =>
        exact .step h hmove hwrites hroom hload hless hspent (ih hfits (lt_of_lt_of_le hturns
            (Nat.le_of_lt_succ hfuel)) _ _)

theorem convert_called (h : Fits binary inst) (input : List UInt8) (room : Nat) :
    Called binary inst input room [] (inst.convert input room) := by
  refine convertLoop_called h ?_ room []
  have hturns := @turnsLeft_le inst input 0
  omega

end Call

section Calls

variable {inst : QprintEncode} {room : Nat} {portion : List UInt8}

theorem run_success (hst : (inst.convert portion room).status = .success)
    (again : Bool) (calls : List (Nat × Bool)) (portions : List (List UInt8))
    (written : List UInt8) : run ((room, again) :: calls) inst (portion :: portions) written =
      run calls (inst.convert portion room).state portions
        (written ++ (inst.convert portion room).written) := by
  rw [run]
  simp only [hst]

theorem run_skip (hst : (inst.convert portion room).status = .tooBig)
    {again : Bool} (hskip : (inst.convert portion room).left = [] ∧ ¬ again)
    (calls : List (Nat × Bool)) (portions : List (List UInt8)) (written : List UInt8) :
    run ((room, again) :: calls) inst (portion :: portions) written =
      run calls (inst.convert portion room).state portions
        (written ++ (inst.convert portion room).written) := by
  rw [run]
  simp only [hst, if_pos hskip]

theorem run_again (hst : (inst.convert portion room).status = .tooBig)
    {again : Bool} (hskip : ¬ ((inst.convert portion room).left = [] ∧ ¬ again))
    (calls : List (Nat × Bool)) (portions : List (List UInt8)) (written : List UInt8) :
    run ((room, again) :: calls) inst (portion :: portions) written =
      run calls (inst.convert portion room).state ((inst.convert portion room).left :: portions)
        (written ++ (inst.convert portion room).written) := by
  rw [run]
  simp only [hst, if_neg hskip]

end Calls

section Lossless

variable {binary : Bool} {inst : QprintEncode}

theorem pending_append (inst : QprintEncode) (input rest : List UInt8) :
    pending inst (input ++ rest) = pending inst input ++ rest := by
  rw [pending, pending, append_assoc]

theorem pending_closed (hclosed : inst.lbCnt ≤ inst.lbPtr)
    (input : List UInt8) : pending inst input = input := by
  rw [pending, if_neg (by omega), nil_append]

theorem Safe.front {input rest : List UInt8} (h : Safe inst (input ++ rest)) : Safe inst input := by
  intro hptr hcnt hhead
  apply h hptr hcnt
  obtain ⟨tail, rfl⟩ := head?_eq_some_iff.mp hhead
  rfl

theorem Safe.append {input rest : List UInt8} (h : Safe inst input)
    (hpending : pending inst input ≠ []) : Safe inst (input ++ rest) := by
  intro hptr hcnt
  rw [pending_closed (by omega)] at hpending
  obtain ⟨b, tail, rfl⟩ := exists_cons_of_ne_nil hpending
  exact h hptr hcnt

/-- Behind `seen`, no portion ends between a carriage return that opens a line
break and its line feed. -/
def Apart (seen : List UInt8) (portions : List (List UInt8)) : Prop :=
  ∀ before behind, portions = before ++ behind → before ≠ [] →
    oddReturns (seen ++ before.flatten) = true →
    behind.flatten.head? ≠ some 10

/-- A state in which some portions of the text are left, none of which parts a
line break. -/
structure Ready (binary : Bool) (text : List UInt8) (inst : QprintEncode)
    (portions : List (List UInt8)) : Prop where
  fits : Fits binary inst
  safe : Safe inst portions.flatten
  history : binary = false → ∃ seen, seen ++ portions.flatten = text ∧
    Linked inst seen ∧ Apart seen portions

section Next

variable {text portion : List UInt8} {portions : List (List UInt8)} {room : Nat}
  {r : ConvResult QprintEncode UInt8 UInt8}

section

variable (h : Ready binary text inst (portion :: portions))
  (hcall : Called binary inst portion room [] r)
include h hcall

theorem Ready.next (hleft : r.left = []) :
    Ready binary text r.state portions where
  fits := hcall.fits
  safe := by
    rintro hptr hcnt
    have hbinary := hcall.fits.binary_of_cnt hcnt
    obtain ⟨seen, -, hlinked, hapart⟩ := h.history hbinary
    obtain ⟨consumed, hportion, hlinked'⟩ := hcall.linked hbinary
    rw [hleft, append_nil] at hportion
    have hodd := (hlinked' seen hlinked).mp hcnt
    refine hapart [portion] portions rfl nofun ?_
    rw [flatten_singleton, hportion, hodd]
  history := by
    intro hbinary
    obtain ⟨seen, htext, hlinked, hapart⟩ := h.history hbinary
    obtain ⟨consumed, hportion, hlinked'⟩ := hcall.linked hbinary
    rw [hleft, append_nil] at hportion
    refine ⟨seen ++ consumed, ?_, hlinked' seen hlinked, ?_⟩
    · rw [← htext, flatten_cons, hportion, append_assoc]
    · intro before behind hportions _ hodd
      refine hapart (portion :: before) behind (by rw [hportions]; rfl) nofun ?_
      rwa [flatten_cons, ← append_assoc, hportion]

theorem Ready.more (hpending : pending r.state r.left ≠ []) :
    Ready binary text r.state (r.left :: portions) where
  fits := hcall.fits
  safe := by
    have hsafe := h.safe
    exact (hcall.safe hsafe.front).append hpending
  history := by
    intro hbinary
    obtain ⟨seen, htext, hlinked, hapart⟩ := h.history hbinary
    obtain ⟨consumed, hportion, hlinked'⟩ := hcall.linked hbinary
    refine ⟨seen ++ consumed, ?_, hlinked' seen hlinked, ?_⟩
    · rw [← htext, flatten_cons, flatten_cons, hportion, append_assoc, append_assoc]
    · intro before behind hportions hne hodd
      obtain ⟨first, before, rfl⟩ := exists_cons_of_ne_nil hne
      obtain ⟨rfl, hbehind⟩ := List.cons.inj hportions
      refine hapart (portion :: before) behind (by rw [hbehind]; rfl) nofun ?_
      rw [flatten_cons, ← append_assoc] at hodd
      rw [flatten_cons, hportion, ← append_assoc, ← append_assoc]
      exact hodd

theorem Ready.writes {new : List UInt8}
    (hnew : Writes new (pending r.state (r.left ++ portions.flatten))) :
    Writes (r.written ++ new) (pending inst (portion :: portions).flatten) := by
  have hsafe := h.safe
  obtain ⟨text, bytes, extra, hwritten, hwrites, -, heq, hextra, -⟩ :=
    hcall.writes
  rw [hextra hsafe.front, nil_append] at heq
  have hall := hwrites.append hnew
  rw [pending_append, ← append_assoc, heq, ← pending_append] at hall
  rw [hwritten, nil_append]
  exact hall

end

end Next

theorem run_lossless {calls : List (Nat × Bool)} {inst : QprintEncode}
    {text : List UInt8} (h : Ready binary text inst portions)
    (heven : binary = false → oddReturns text = false) {o : EncodeEnd}
    (hrun : run calls inst portions written = some o) : ∃ new, o = .ended (written ++ new) true ∧
      Writes new (pending inst portions.flatten) := by
  induction calls generalizing inst portions written with
  | nil => nomatch hrun
  | cons call calls ih =>
    obtain ⟨room, again⟩ := call
    cases portions with
    | nil =>
      have hclosed : ¬ inst.lbPtr < inst.lbCnt := by
        intro hopen
        have hcnt : inst.lbCnt = 1 := by
          have := h.fits.ptr_le
          omega
        have hbinary := h.fits.binary_of_cnt hcnt
        obtain ⟨seen, rfl, hlinked, -⟩ := h.history hbinary
        have hodd := hlinked.mp hcnt
        rw [flatten_nil, append_nil] at heven
        rw [heven hbinary] at hodd
        nomatch hodd
      rw [run, flushTouches, decide_eq_false hclosed] at hrun
      cases hrun
      refine ⟨[], by rw [append_nil], ?_⟩
      rw [pending_closed (by omega)]
      exact writes_nil
    | cons portion portions =>
      have hcall := convert_called h.fits portion room
      rcases hcall.status with ⟨hst, hleft, -⟩ | ⟨hst, hpending⟩
      · rw [run_success hst] at hrun
        obtain ⟨new, rfl, hnew⟩ := ih (h.next hcall hleft) hrun
        refine ⟨_, by rw [append_assoc], h.writes hcall ?_⟩
        rwa [hleft, nil_append]
      · by_cases hskip : (inst.convert portion room).left = [] ∧ ¬ again
        · rw [run_skip hst hskip] at hrun
          obtain ⟨new, rfl, hnew⟩ := ih (h.next hcall hskip.1) hrun
          refine ⟨_, by rw [append_assoc], h.writes hcall ?_⟩
          rwa [hskip.1, nil_append]
        · rw [run_again hst hskip] at hrun
          obtain ⟨new, rfl, hnew⟩ := ih (h.more hcall hpending) hrun
          exact ⟨_, by rw [append_assoc], h.writes hcall hnew⟩

end Lossless

section Ends

variable {binary : Bool} {inst : QprintEncode}

/-- What is still to be done. -/
def work (inst : QprintEncode) (portions : List (List UInt8)) : Nat :=
  (pending inst portions.flatten).length * 2 + inst.short + portions.length

theorem work_cons (inst : QprintEncode) (portion : List UInt8) (portions : List (List UInt8)) :
    work inst (portion :: portions) = (pending inst portion).length * 2 + inst.short +
        portions.flatten.length * 2 + portions.length + 1 := by
  rw [work, flatten_cons, pending_append, length_append, length_cons]
  omega

theorem work_over (inst : QprintEncode) (portions : List (List UInt8)) : work inst portions =
      (pending inst []).length * 2 + inst.short +
        portions.flatten.length * 2 + portions.length := by
  have happend := pending_append inst [] portions.flatten
  rw [nil_append] at happend
  rw [work, happend, length_append]
  omega

/-- A call is the last one, or leaves less to do if it has room for an
escape. -/
theorem run_call (h : Fits binary inst) (call : Nat × Bool)
    (portions : List (List UInt8)) (written : List UInt8) :
    (∃ o, ∀ calls, run (call :: calls) inst portions written = some o) ∨
    ∃ inst' portions' written', Fits binary inst' ∧
      (∀ calls, run (call :: calls) inst portions written = run calls inst' portions' written') ∧
      work inst' portions' ≤ work inst portions ∧
      (3 ≤ call.1 → work inst' portions' < work inst portions) := by
  obtain ⟨room, again⟩ := call
  cases portions with
  | nil =>
    refine .inl ?_
    by_cases htouch : inst.flushTouches = true
    · exact ⟨_, fun calls => by rw [run, if_pos htouch]⟩
    · exact ⟨_, fun calls => by rw [run, if_neg htouch]⟩
  | cons portion portions =>
    have hcall := convert_called h portion room
    have hload := hcall.load
    have hwork := work_cons inst portion portions
    refine .inr ?_
    rcases hcall.status with ⟨hst, hleft, -⟩ | ⟨hst, -⟩
    · have hwork' := work_over (inst.convert portion room).state portions
      rw [hleft] at hload
      exact ⟨_, portions, _, hcall.fits, fun calls =>
        run_success hst again calls portions written, by omega,
        fun _ => by omega⟩
    · have hless := hcall.less hst
      by_cases hskip : (inst.convert portion room).left = [] ∧ ¬ again
      · have hwork' := work_over (inst.convert portion room).state portions
        rw [hskip.1] at hload
        exact ⟨_, portions, _, hcall.fits, fun calls =>
          run_skip hst hskip calls portions written, by omega,
          fun _ => by omega⟩
      · have hwork' := work_cons (inst.convert portion room).state
          (inst.convert portion room).left portions
        refine ⟨_, _, _, hcall.fits, fun calls =>
          run_again hst hskip calls portions written, by omega,
          fun hroom => ?_⟩
        omega

/-- Runs end, if the sizes do not stay too small for an escape. -/
theorem run_ends {schedule : Nat → Nat × Bool}
    (hample : Ample 3 fun k => (schedule k).1) (h : Fits binary inst)
    (portions : List (List UInt8)) (written : List UInt8) :
    ∃ n o, run ((List.range n).map schedule) inst portions written = some o := by
  have hrange : ∀ (schedule : Nat → Nat × Bool) n, (List.range (n + 1)).map schedule =
        schedule 0 :: (List.range n).map fun k => schedule (k + 1) := by
    intro schedule n
    rw [range_succ_eq_map, map_cons, List.map_map]
    rfl
  generalize hw : work inst portions = w
  induction w using Nat.strongRecOn generalizing inst portions written schedule with
  | ind w ihw =>
  obtain ⟨j, -, hj⟩ := hample 0
  -- over the calls to the next large size
  induction j generalizing inst portions written schedule w with
  | zero =>
    rcases run_call h (schedule 0) portions written with
      ⟨o, ho⟩ | ⟨inst', portions', written', hfits, hrun, -, hless⟩
    · exact ⟨1, o, ho []⟩
    · obtain ⟨n, o, ho⟩ := ihw _ (by rw [← hw]; exact hless hj) hample.tail
        hfits portions' written' rfl
      exact ⟨n + 1, o, by rw [hrange, hrun, ho]⟩
  | succ j ihj =>
    rcases run_call h (schedule 0) portions written with
      ⟨o, ho⟩ | ⟨inst', portions', written', hfits, hrun, hle, -⟩
    · exact ⟨1, o, ho []⟩
    · obtain ⟨n, o, ho⟩ := ihj _ (fun w' hw' => ihw w' (by omega))
        hample.tail hfits portions' written' rfl hj
      exact ⟨n + 1, o, by rw [hrange, hrun, ho]⟩

end Ends

section Parted

variable {inst : QprintEncode}

/-- A call that had enough room is done with its portion. -/
theorem convert_ample (h : Fits false inst) (hclosed : inst.lbCnt ≤ inst.lbPtr)
    {portion : List UInt8} {room : Nat} (hroom : portion.length * 9 + 3 ≤ room) :
    (inst.convert portion room).status = .success ∧ (inst.convert portion room).left = [] ∧
      (inst.convert portion room).state.lbCnt ≤ (inst.convert portion room).state.lbPtr := by
  have hcall := convert_called h portion room
  have hshort := short_le inst
  have hample := hcall.ample (by
    rw [pending_closed hclosed]
    omega)
  rcases hcall.status with hdone | ⟨hst, -⟩
  · exact hdone
  · rw [hample] at hst
    nomatch hst

/-- A run in which every call has enough room.  It writes a carriage return
twice where a portion ends behind it and the line feed follows. -/
theorem run_ample (h : Fits false inst) (hclosed : inst.lbCnt ≤ inst.lbPtr)
    (hlinked : Linked inst seen) (portions : List (List UInt8)) {room : Nat}
    (hroom : portions.flatten.length * 9 + 3 ≤ room) (written : List UInt8) : ∃ new bytes,
      run (List.replicate (portions.length + 1) (room, true)) inst portions
        written = some (.ended (written ++ new) true) ∧
      Writes new bytes ∧ portions.flatten.length ≤ bytes.length ∧
      ∀ before behind, portions = before ++ behind → oddReturns (seen ++ before.flatten) = true →
        behind.flatten.head? = some 10 → portions.flatten.length < bytes.length := by
  induction portions generalizing inst seen written with
  | nil =>
    refine ⟨[], [], ?_, writes_nil, le_rfl, ?_⟩
    · have htouch : ¬ inst.flushTouches = true := by
        rw [flushTouches, decide_eq_true_eq]
        omega
      rw [length_nil, replicate_succ, run, if_neg htouch, append_nil]
    · intro before behind hportions _ hhead
      obtain ⟨rfl, rfl⟩ := append_eq_nil_iff.mp hportions.symm
      nomatch hhead
  | cons portion portions ih =>
    rw [flatten_cons, length_append] at hroom
    obtain ⟨hst, hleft, hclosed'⟩ :=
      convert_ample h hclosed (show portion.length * 9 + 3 ≤ room by omega)
    have hcall := convert_called h portion room
    obtain ⟨consumed, hportion, hlinked'⟩ := hcall.linked rfl
    rw [hleft, append_nil] at hportion
    obtain ⟨new', bytes', hrun, hwrites', hlength, hstrict⟩ :=
      ih hcall.fits hclosed' (hlinked' seen hlinked) (by omega)
        (written ++ (inst.convert portion room).written)
    obtain ⟨new, bytes, extra, hwritten, hwrites, -, heq, -, hextra⟩ :=
      hcall.writes
    rw [hleft, pending_closed hclosed', pending_closed hclosed, append_nil] at heq
    rw [hwritten, nil_append] at hrun
    refine ⟨new ++ new', bytes ++ bytes', ?_, hwrites.append hwrites', ?_, ?_⟩
    · rw [length_cons, replicate_succ, run_success hst, hwritten, nil_append, hrun, append_assoc]
    · rw [heq]
      simp only [flatten_cons, length_append]
      omega
    · intro before behind hportions hodd hhead
      rw [heq]
      simp only [flatten_cons, length_append]
      cases before with
      | nil =>
        rw [nil_append] at hportions
        rw [flatten_nil, append_nil] at hodd
        rw [← hportions, flatten_cons] at hhead
        cases portion with
        | nil =>
          have hless := hstrict [] portions rfl (by
            rw [← hportion]
            simpa using hodd) hhead
          omega
        | cons b rest =>
          have hcnt := hlinked.mpr hodd
          have hptr := h.ptr_le
          have hrisky : ¬ Safe inst (b :: rest) := by
            intro hsafe
            exact hsafe (by omega) hcnt hhead
          have hpos := length_pos_of_ne_nil (hextra hrisky hst)
          omega
      | cons first before =>
        obtain ⟨rfl, hbehind⟩ := List.cons.inj hportions
        have hless := hstrict before behind hbehind (by
          rw [flatten_cons, ← append_assoc] at hodd
          rw [← hportion]
          exact hodd) hhead
        omega

end Parted

section Touched

variable {inst : QprintEncode} {input : List UInt8}

/-- A turn with a byte less of room: the same, or the end of the call, where
the other one does not succeed or uses up all its room, or has only found out
that white space is at the end of a line. -/
inductive Less (inst : QprintEncode) (input : List UInt8) (ocnt : Nat) :
    Step → Step → Prop where
  | same (s : Step) : Less inst input ocnt s s
  | fails {inst' inst'' : QprintEncode} {new new' input' : List UInt8} :
      Less inst input ocnt (.out .tooBig inst' input new) (.out .tooBig inst'' input' new')
  | spent {inst' inst'' : QprintEncode} {new new' input' : List UInt8}
      {trailWs : Nat} (hnew : new'.length = ocnt + 1) :
      Less inst input ocnt (.out .tooBig inst' input new) (.go inst'' input' trailWs new')
  | blank {inst' : QprintEncode} {new : List UInt8} {trailWs : Nat}
      (hocnt : ocnt = 0) (hblank : isBlank (inst.nextChar input) = true) :
      Less inst input ocnt (.out .tooBig inst' input new) (.go inst input trailWs [])

theorem put_less (h : Fits false inst) (need : Nat) {chars : List UInt8}
    (hchars : 0 < chars.length) (ocnt trailWs : Nat) :
    Less inst input ocnt (inst.put need chars ocnt input trailWs)
      (inst.put need chars (ocnt + 1) input trailWs) := by
  have hlength : inst.lbchars.length = 2 := by
    rw [h.lbchars]
    rfl
  rw [put, put, h.softBreak_eq, hlength]
  by_cases hbreak : inst.lineCcnt < need
  · rw [if_pos hbreak, if_pos hbreak]
    by_cases hsoft : ocnt < 2 + 1
    · rw [if_pos hsoft]
      by_cases hsoft' : ocnt + 1 < 2 + 1
      · rw [if_pos hsoft']
        exact .same _
      · rw [if_neg hsoft', if_pos (by omega)]
        exact .fails
    · have hsoft' : ¬ ocnt + 1 < 2 + 1 := by omega
      rw [if_neg hsoft, if_neg hsoft']
      by_cases hroom : ocnt - (2 + 1) < chars.length
      · rw [if_pos hroom]
        by_cases hroom' : ocnt + 1 - (2 + 1) < chars.length
        · rw [if_pos hroom']
          exact .same _
        · rw [if_neg hroom']
          refine .spent ?_
          simp only [length_append, length_cons, length_nil]
          omega
      · have hroom' : ¬ ocnt + 1 - (2 + 1) < chars.length := by omega
        rw [if_neg hroom, if_neg hroom']
        exact .same _
  · rw [if_neg hbreak, if_neg hbreak]
    by_cases hroom : ocnt < chars.length
    · rw [if_pos hroom]
      by_cases hroom' : ocnt + 1 < chars.length
      · rw [if_pos hroom']
        exact .same _
      · rw [if_neg hroom']
        exact .spent (by omega)
    · have hroom' : ¬ ocnt + 1 < chars.length := by omega
      rw [if_neg hroom, if_neg hroom']
      exact .same _

theorem putBlank_less (h : Fits false inst)
    (hblank : isBlank (inst.nextChar input) = true) (ocnt : Nat) : Less inst input ocnt
      (inst.putBlank (inst.nextChar input) ocnt input)
      (inst.putBlank (inst.nextChar input) (ocnt + 1) input) := by
  have hlength : inst.lbchars.length = 2 := by
    rw [h.lbchars]
    rfl
  rw [putBlank, putBlank, h.softBreak_eq, hlength]
  by_cases hbreak : inst.lineCcnt < 2
  · rw [if_pos hbreak, if_pos hbreak]
    by_cases hsoft : ocnt < 2 + 1
    · rw [if_pos hsoft]
      by_cases hsoft' : ocnt + 1 < 2 + 1
      · rw [if_pos hsoft']
        exact .same _
      · rw [if_neg hsoft']
        refine .spent ?_
        simp only [length_cons, length_nil]
        omega
    · have hsoft' : ¬ ocnt + 1 < 2 + 1 := by omega
      rw [if_neg hsoft, if_neg hsoft']
      exact .same _
  · have hroom' : ¬ ocnt + 1 < 1 := by omega
    rw [if_neg hbreak, if_neg hbreak, if_neg hroom']
    by_cases hroom : ocnt < 1
    · rw [if_pos hroom]
      by_cases htrail : inst.trailWsLoop ((input.length - 1) % uintMod) input 0 1 = 0
      · rw [if_pos htrail]
        refine .spent ?_
        simp only [length_singleton]
        omega
      · rw [if_neg htrail]
        exact .blank (by omega) hblank
    · rw [if_neg hroom]
      exact .same _

theorem turn_less (h : Fits false inst) (input : List UInt8) (trailWs ocnt : Nat) :
    Less inst input ocnt (inst.turn ocnt input trailWs) (inst.turn (ocnt + 1) input trailWs) := by
  have hlength : inst.lbchars.length = 2 := by
    rw [h.lbchars]
    rfl
  cases hlook : inst.lookAhead input with
  | true =>
    rw [turn, turn, hlength, hlook, if_pos rfl, if_pos rfl]
    by_cases hlast : 2 ≤ inst.lbCnt + 1
    · rw [if_pos hlast, if_pos hlast]
      by_cases hocnt : ocnt < inst.lbCnt + 1
      · rw [if_pos hocnt]
        by_cases hocnt' : ocnt + 1 < inst.lbCnt + 1
        · rw [if_pos hocnt']
          exact .same _
        · rw [if_neg hocnt']
          have hcnt := h.ptr_le
          refine .spent ?_
          rw [length_take, hlength]
          omega
      · have hocnt' : ¬ ocnt + 1 < inst.lbCnt + 1 := by omega
        rw [if_neg hocnt, if_neg hocnt']
        exact .same _
    · rw [if_neg hlast, if_neg hlast]
      exact .same _
  | false =>
    by_cases hmore : inst.lbCnt ≤ inst.lbPtr ∧ input = []
    · rw [turn, turn, hlook, if_neg Bool.false_ne_true,
        if_neg Bool.false_ne_true, if_pos hmore, if_pos hmore]
      exact .same _
    · rw [turn_char hlook hmore, turn_char hlook hmore]
      by_cases hblank : (!inst.binary && trailWs == 0 && isBlank (inst.nextChar input)) = true
      · rw [if_pos hblank, if_pos hblank]
        rw [Bool.and_eq_true] at hblank
        exact putBlank_less h hblank.2 ocnt
      · rw [if_neg hblank, if_neg hblank]
        by_cases hplain : inst.isPlain (inst.nextChar input) = true
        · rw [if_pos hplain, if_pos hplain]
          exact put_less h 2 (by simp) ocnt trailWs
        · rw [if_neg hplain, if_neg hplain]
          exact put_less h 4 (by simp [escaped]) ocnt (trailWs - 1)

/-- A call that succeeds had room for what was to be written. -/
theorem Called.pending_le {r : ConvResult QprintEncode UInt8 UInt8}
    (h : Called false inst input ocnt written r) (hsafe : Safe inst input)
    (hst : r.status = .success) : (pending inst input).length ≤ ocnt := by
  obtain ⟨new, bytes, extra, -, hwrites, hlength, heq, hextra, -⟩ := h.writes
  have hbytes := hwrites.length_le
  rw [hextra hsafe, nil_append] at heq
  rw [← heq, length_append]
  rcases h.status with ⟨-, hleft, hclosed⟩ | ⟨hbig, -⟩
  · rw [hleft, pending_closed hclosed, length_nil]
    omega
  · rw [hst] at hbig
    nomatch hbig

/-- White space that is left alone does not end in a carriage return. -/
theorem Fits.blank_even (h : Fits false inst) (hblank : isBlank (inst.nextChar input) = true)
    (hone : (pending inst input).length ≤ 1) (seen : List UInt8) :
    ¬ oddReturns (seen ++ input) = true := by
  have hclosed : ¬ inst.lbPtr < inst.lbCnt := by
    intro hopen
    have hptr : inst.lbPtr = 0 := by
      have := h.ptr_le
      omega
    rw [nextChar, if_pos hopen, hptr, h.lbchars] at hblank
    cases hblank
  rw [nextChar, if_neg hclosed] at hblank
  rw [pending_closed (by omega)] at hone
  cases input with
  | nil => cases hblank
  | cons c rest =>
    rw [length_cons] at hone
    rw [length_eq_zero_iff.mp (by omega : rest.length = 0), oddReturns_snoc]
    intro hodd
    rw [Bool.and_eq_true, beq_iff_eq] at hodd
    rw [hodd.1] at hblank
    cases hblank

/-- If all that is left is written, and the text ends in a carriage return
that opens a line break, then this one was just written. -/
theorem Move.input_nil {input' bytes : List UInt8}
    (hmove : Move false inst input inst' input' bytes) (h : Fits false inst)
    (hlinked : Linked inst seen) (hodd : oddReturns (seen ++ input) = true)
    (hpending : pending inst' input' = []) : input = [] := by
  obtain ⟨hopen, hnil⟩ := append_eq_nil_iff.mp hpending
  have hclosed : ¬ inst'.lbPtr < inst'.lbCnt := by
    intro hlt
    rw [if_pos hlt] at hopen
    nomatch hopen
  obtain ⟨consumed, hinput, hlinked'⟩ := hmove.linked h
  rw [hnil, append_nil] at hinput
  have hcnt : inst'.lbCnt = 1 :=
    (hlinked' seen hlinked).mpr (by rw [← hinput, hodd])
  cases hmove with
  | stay _ _ _ _ => exact hnil
  | hold _ _ _ hptr' _ | close _ _ _ _ hcnt' => omega
  | replay _ _ _ _ _ => exact hnil
  | take _ _ _ _ _ hcnt' => omega

/-- A call that succeeds stops with a byte less of room at the carriage return
in which the text ends, if it does not succeed as well. -/
theorem convertLoop_less (h : Fits false inst) (hsafe : Safe inst input)
    (hlinked : Linked inst seen) (hodd : oddReturns (seen ++ input) = true) {fuel trailWs : Nat}
    (hfuel : turnsLeft inst input trailWs < fuel)
    (hst : (convertLoop fuel inst input trailWs (ocnt + 1) written).status = .success) :
    (convertLoop fuel inst input trailWs ocnt written).status = .success ∨
    (convertLoop fuel inst input trailWs ocnt written).status = .tooBig ∧
      (convertLoop fuel inst input trailWs ocnt written).left = [] := by
  induction fuel generalizing inst input seen trailWs ocnt written with
  | zero => nomatch hfuel
  | succ fuel ih =>
    have hless := turn_less h input trailWs ocnt
    have hturned := turn_turned h input trailWs ocnt
    have hturned' := turn_turned h input trailWs (ocnt + 1)
    rw [convertLoop] at hst ⊢
    generalize inst.turn ocnt input trailWs = s at hless hturned ⊢
    generalize inst.turn (ocnt + 1) input trailWs = s' at hless hturned' hst
    cases hless with
    | same =>
      cases hturned with
      | done hinput hclosed => exact .inl rfl
      | stop _ _ _ _ _ _ _ _ _ => nomatch hst
      | go hfits hmove _ hroom hturns _ _ _ =>
        obtain ⟨consumed, hinput, hlinked'⟩ := hmove.linked h
        have hsub : ocnt + 1 - _ = ocnt - _ + 1 := Nat.succ_sub hroom
        dsimp only at hst ⊢
        rw [hsub] at hst
        refine ih hfits hmove.safe (hlinked' seen hlinked) ?_
          (lt_of_lt_of_le hturns (Nat.le_of_lt_succ hfuel)) hst
        rwa [append_assoc, ← hinput]
    | fails => nomatch hst
    | spent hnew =>
      cases hturned' with
      | go hfits hmove _ _ hturns _ _ _ =>
        dsimp only at hst
        rw [hnew, Nat.sub_self] at hst
        have hpending := (convertLoop_called hfits
          (lt_of_lt_of_le hturns (Nat.le_of_lt_succ hfuel)) 0
          _).pending_le hmove.safe hst
        exact .inr ⟨rfl, hmove.input_nil h hlinked hodd
          (length_eq_zero_iff.mp (Nat.le_zero.mp hpending))⟩
    | blank hocnt hblank =>
      cases hturned' with
      | go _ _ _ _ hturns _ _ _ =>
        rw [hocnt] at hst
        have hone := (convertLoop_called h (lt_of_lt_of_le hturns (Nat.le_of_lt_succ hfuel)) 1
          _).pending_le hsafe hst
        exact absurd hodd (h.blank_even hblank hone seen)

/-- A size of the buffer with which the call stops at the carriage return in
which the text ends. -/
theorem exists_stop (h : Fits false inst) (hclosed : inst.lbCnt ≤ inst.lbPtr)
    (hne : input ≠ []) (hsafe : Safe inst input)
    (hlinked : Linked inst seen) (hodd : oddReturns (seen ++ input) = true) :
    ∃ room, (inst.convert input room).status = .tooBig ∧ (inst.convert input room).left = [] := by
  have hzero : (inst.convert input 0).status ≠ .success := by
    intro hst
    have hpending := (convert_called h input 0).pending_le hsafe hst
    rw [pending_closed hclosed] at hpending
    exact hne (length_eq_zero_iff.mp (Nat.le_zero.mp hpending))
  have hample := (convert_ample h hclosed (le_refl (input.length * 9 + 3))).1
  -- the last size with which the call does not succeed
  have hlast : ∀ n, (inst.convert input n).status = .success →
      ∃ k, (inst.convert input k).status ≠ .success ∧
        (inst.convert input (k + 1)).status = .success := by
    intro n hn
    induction n with
    | zero => exact absurd hn hzero
    | succ n ih =>
      by_cases hst : (inst.convert input n).status = .success
      · exact ih hst
      · exact ⟨n, hst, hn⟩
  obtain ⟨room, hnot, hst⟩ := hlast _ hample
  have hturns := @turnsLeft_le inst input 0
  rcases convertLoop_less h hsafe hlinked hodd (by omega) hst with hst' | hstop
  · exact absurd hst' hnot
  · exact ⟨room, hstop⟩

theorem run_open (h : Fits false inst) (hopen : inst.lbPtr < inst.lbCnt)
    (hnil : portions.flatten = []) (written : List UInt8) :
    ∃ calls, run calls inst portions written = some .touched := by
  induction portions generalizing inst written with
  | nil =>
    refine ⟨[(0, false)], ?_⟩
    rw [run, flushTouches, decide_eq_true hopen, if_pos rfl]
  | cons portion portions ih =>
    obtain ⟨rfl, hnil⟩ := append_eq_nil_iff.mp hnil
    have hcall := convert_called h [] 0
    have hsafe : Safe inst [] := fun _ _ => by simp
    have hpending : pending inst [] = [13] := by
      rw [pending, if_pos hopen, append_nil]
    obtain ⟨consumed, hinput, -⟩ := hcall.linked rfl
    have hleft := (append_eq_nil_iff.mp hinput.symm).2
    rcases hcall.status with ⟨hst, -⟩ | ⟨hst, hmore⟩
    · have hlength := hcall.pending_le hsafe hst
      rw [hpending] at hlength
      cases hlength
    · have hopen' : (inst.convert [] 0).state.lbPtr < (inst.convert [] 0).state.lbCnt := by
        by_contra hclosed
        rw [hleft, pending_closed (by omega)] at hmore
        exact hmore rfl
      obtain ⟨calls, hrun⟩ := ih hcall.fits hopen' hnil (written ++ (inst.convert [] 0).written)
      refine ⟨(0, false) :: calls, ?_⟩
      rw [run_skip hst ⟨hleft, by decide⟩, hrun]

/-- A text that ends in a carriage return that opens a line break may make the
flush touch the input that is not there. -/
theorem run_touched {text : List UInt8}
    (h : Ready false text inst portions) (hclosed : inst.lbCnt ≤ inst.lbPtr)
    (hodd : oddReturns text = true) (hne : portions.flatten ≠ []) (written : List UInt8) :
    ∃ calls, run calls inst portions written = some .touched := by
  induction portions generalizing inst written with
  | nil => exact absurd rfl hne
  | cons portion portions ih =>
    have hsafe := h.safe
    by_cases hnil : portions.flatten = []
    · obtain ⟨seen, htext, hlinked, -⟩ := h.history rfl
      rw [flatten_cons, hnil, append_nil] at htext hne
      obtain ⟨room, hst, hleft⟩ := exists_stop h.fits hclosed hne hsafe.front
        hlinked (by rw [htext, hodd])
      have hcall := convert_called h.fits portion room
      have hopen : (inst.convert portion room).state.lbPtr <
          (inst.convert portion room).state.lbCnt := by
        rcases hcall.status with ⟨hst', -⟩ | ⟨-, hmore⟩
        · rw [hst] at hst'
          nomatch hst'
        · by_contra hnot
          rw [hleft, pending_closed (by omega)] at hmore
          exact hmore rfl
      obtain ⟨calls, hrun⟩ := run_open hcall.fits hopen hnil
        (written ++ (inst.convert portion room).written)
      refine ⟨(room, false) :: calls, ?_⟩
      rw [run_skip hst ⟨hleft, by decide⟩, hrun]
    · obtain ⟨hst, hleft, hclosed'⟩ := convert_ample h.fits hclosed
        (le_refl (portion.length * 9 + 3))
      have hcall := convert_called h.fits portion (portion.length * 9 + 3)
      obtain ⟨calls, hrun⟩ := ih (h.next hcall hleft) hclosed' hnil _
      exact ⟨(_, true) :: calls, (run_success hst true _ _ _).trans hrun⟩

end Touched

end QprintEncode

open QprintEncode

/-- Streaming quoted-printable encoding with the line-break characters CR LF:
every run of the filter ends with a text that `quoted_printable_decode` maps
back to the bytes, and never touches absent input, exactly if the filter is in
binary mode, or no portion ends between a carriage return that opens a line
break and its line feed and the bytes do not end in one.  Runs end if the
sizes of the buffers do not stay too small for an escape. -/
theorem qprintEncode_lossless_iff (lineLen : Nat) (hlen : 4 ≤ lineLen)
    (binary force : Bool) (portions : List (List UInt8)) : ((∀ calls o,
        run calls (ctor lineLen [13, 10] binary force) portions [] = some o →
        ∃ written, o = .ended written true ∧ quotedPrintableDecode written = portions.flatten) ↔
      (binary = true ∨ Apart [] portions ∧ oddReturns portions.flatten = false)) ∧
    ∀ schedule, Ample 3 (fun k => (schedule k).1) → ∃ n o, run ((List.range n).map schedule)
        (ctor lineLen [13, 10] binary force) portions [] = some o := by
  have hfits : QprintEncode.Fits binary (ctor lineLen [13, 10] binary force) :=
    ⟨rfl, rfl, hlen, .inl ⟨rfl, rfl⟩⟩
  have hclosed : (ctor lineLen [13, 10] binary force).lbCnt ≤
      (ctor lineLen [13, 10] binary force).lbPtr := le_rfl
  have hsafe : ∀ f, Safe (ctor lineLen [13, 10] binary force) f := by
    intro f hptr
    nomatch hptr
  have hlinked : QprintEncode.Linked (ctor lineLen [13, 10] binary force) [] :=
    ⟨nofun, nofun⟩
  refine ⟨⟨fun hall => ?_, fun hcond calls o hrun => ?_⟩,
    fun schedule hample => run_ends hample hfits portions []⟩
  · cases binary with
    | true => exact .inl rfl
    | false =>
      have hapart : Apart [] portions := by
        intro before behind hportions _ hodd hhead
        obtain ⟨new, bytes, hrun, hwrites, -, hstrict⟩ := run_ample hfits
          hclosed hlinked portions le_rfl []
        have hlong := hstrict before behind hportions hodd hhead
        obtain ⟨written, ho, hdecode⟩ := hall _ _ hrun
        cases ho
        rw [nil_append, hwrites.decode] at hdecode
        rw [hdecode] at hlong
        exact lt_irrefl _ hlong
      refine .inr ⟨hapart, ?_⟩
      by_contra hodd
      rw [Bool.not_eq_false] at hodd
      have hne : portions.flatten ≠ [] := by
        intro hnil
        rw [hnil] at hodd
        nomatch hodd
      have hready : Ready false portions.flatten (ctor lineLen [13, 10] false force) portions :=
        ⟨hfits, hsafe _, fun _ => ⟨[], rfl, hlinked, hapart⟩⟩
      obtain ⟨calls, hrun⟩ := run_touched hready hclosed hodd hne []
      obtain ⟨written, ho, -⟩ := hall _ _ hrun
      nomatch ho
  · have hready : Ready binary portions.flatten (ctor lineLen [13, 10] binary force) portions := by
      refine ⟨hfits, hsafe _, fun hbinary => ⟨[], rfl, hlinked, ?_⟩⟩
      rcases hcond with htrue | hcond
      · rw [htrue] at hbinary
        nomatch hbinary
      · exact hcond.1
    have heven : binary = false → oddReturns portions.flatten = false := by
      intro hbinary
      rcases hcond with htrue | hcond
      · rw [htrue] at hbinary
        nomatch hbinary
      · exact hcond.2
    obtain ⟨new, rfl, hwrites⟩ := run_lossless hready heven hrun
    refine ⟨_, rfl, ?_⟩
    rw [nil_append, hwrites.decode, pending_closed hclosed]

/-- Lines of 6 characters, in two portions and three calls. -/
theorem qprintEncode_lossless_iff_sample :
    ∃ written, run [(4, true), (9, true), (9, true), (0, true)]
        (ctor 6 [13, 10] false false) [[97, 32, 13], [98, 61]] [] = some (.ended written true) ∧
      quotedPrintableDecode written = [97, 32, 13, 98, 61] := by
  have hapart : Apart [] [[97, 32, 13], [98, 61]] := by
    intro before behind hportions hne _
    rcases before with _ | ⟨p, _ | ⟨q, rest⟩⟩
    · exact absurd rfl hne
    · cases hportions
      decide
    · have hnil : rest ++ behind = [] := by
        injection hportions with _ htail
        injection htail with _ hrest
        exact hrest.symm
      rw [(append_eq_nil_iff.mp hnil).2]
      decide
  have hsome : (run [(4, true), (9, true), (9, true), (0, true)]
      (ctor 6 [13, 10] false false) [[97, 32, 13], [98, 61]] []).isSome := by
    decide
  obtain ⟨o, ho⟩ := Option.isSome_iff_exists.mp hsome
  obtain ⟨written, rfl, hdecode⟩ := (qprintEncode_lossless_iff 6 (by decide)
    false false [[97, 32, 13], [98, 61]]).1.mpr (.inr ⟨hapart, by decide⟩) _ o ho
  exact ⟨written, ho, hdecode⟩

/-- A line break that is cut in two: the carriage return is written twice,
with room enough in every call.  And a carriage return alone, with the size of
the buffer that the filter starts with: the call has too little room, nothing
is left for another one, and the flush touches the input that is not there. -/
theorem qprintEncode_loses :
    (run [(64, true), (64, true), (64, true)] (ctor 76 [13, 10] false false)
        [[97, 13], [10, 98]] [] = some (.ended [97, 61, 48, 68, 13, 10, 98] true) ∧
      quotedPrintableDecode [97, 61, 48, 68, 13, 10, 98] ≠ [97, 13, 10, 98]) ∧
    run [(1, false), (64, false)] (ctor 76 [13, 10] false false) [[13]] [] = some .touched := by
  decide

end PhpEngine
