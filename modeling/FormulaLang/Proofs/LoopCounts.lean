import FormulaLang.Proofs.CountedLoop
import FormulaLang.Proofs.Nearest

/-!
# FormulaLang.Proofs.LoopCounts

How often a counted loop runs, and which numbers it counts with.

* `iterationCount_eq`: the count is the whole part of what the value denotes, between zero and
  `maxIterations` (`roundsOf`).
* `iterationCount_ofNat`: up to `2 ^ 53` a number of rounds comes back from its double.
* `roundStarts`: the states in which a loop evaluates its body, also a loop that fails. The counter
  is bound to the index of the round in each of them (`counters_roundStarts`).

Main statement: counts and counters convert exactly, so a loop of at most `2 ^ 53` rounds does not
show its body one value twice (`loop_counts_exact`).
-/

namespace FormulaLang

open Binary64

/-! ## From values to counts -/

def roundsOf (v : WithBotTop ℚ) : Nat :=
  v.rec 0 (fun q => min ⌊q⌋₊ maxIterations) maxIterations

theorem roundsOf_mono {v w : WithBotTop ℚ} (h : v ≤ w) : roundsOf v ≤ roundsOf w := by
  induction v using WithBotTop.rec with
  | bot => exact Nat.zero_le _
  | coe p =>
    induction w using WithBotTop.rec with
    | bot => exact absurd (le_bot_iff.mp h) (WithBotTop.coe_ne_bot p)
    | coe q => exact min_le_min_right _ (Nat.floor_mono (WithBotTop.coe_le_coe.mp h))
    | top => exact min_le_right _ _
  | top =>
    obtain rfl : w = ⊤ := top_le_iff.mp h
    exact le_refl _

theorem wholePart_eq_floor (x : Float) : wholePart x = ⌊wordNumber (magnitude x)⌋₊ := by
  rw [wholePart, wordNumber, Nat.floor_div_eq_div]

theorem maxIterations_le_wholePart {x : Float} (h : magnitude x = infinityWord) :
    maxIterations ≤ wholePart x := by
  obtain ⟨k, hk⟩ : ∃ k, k = 2045 := ⟨_, rfl⟩
  obtain ⟨e, he⟩ : ∃ e, e = 1074 := ⟨_, rfl⟩
  have hword : infinityWord = k * 2 ^ 52 + 2 ^ 53 := by
    rw [hk]
    rfl
  rw [wholePart, h, hword, units_word (le_refl _) (.inr (by decide)), one, ← he,
    Nat.le_div_iff_mul_le (Nat.two_pow_pos e)]
  calc maxIterations * 2 ^ e ≤ 2 ^ 64 * 2 ^ e := Nat.mul_le_mul_right _ (Nat.sub_le _ _)
    _ = 2 ^ (64 + e) := (Nat.pow_add 2 64 e).symm
    _ ≤ 2 ^ (53 + k) := Nat.pow_le_pow_right (by omega) (by omega)
    _ = 2 ^ 53 * 2 ^ k := Nat.pow_add 2 53 k

theorem iterationCount_of_isNaN {x : Float} (h : x.isNaN = true) : iterationCount x = 0 := by
  rw [iterationCount, h, Bool.true_or, if_pos rfl]

theorem iterationCount_eq {x : Float} {v : WithBotTop ℚ} (h : denoted x.toBits = some v) :
    iterationCount x = roundsOf v := by
  have hnan : x.isNaN = false := by
    rw [Bool.eq_false_iff]
    intro hnan
    rw [denoted_eq_none_iff.mpr hnan] at h
    cases h
  rw [iterationCount, hnan, Bool.false_or]
  by_cases hfinite : x.isFinite = true
  · obtain rfl : (number x : WithBotTop ℚ) = v :=
      Option.some.inj ((denoted_of_isFinite hfinite).symm.trans h)
    show _ = min ⌊number x⌋₊ maxIterations
    rw [number_eq]
    cases isNegative x with
    | false => rw [if_neg Bool.false_ne_true, if_neg Bool.false_ne_true, one_mul, wholePart_eq_floor]
    | true =>
      have hneg : -wordNumber (magnitude x) ≤ 0 := neg_nonpos.mpr (wordNumber_nonneg _)
      rw [if_pos rfl, if_pos rfl, neg_one_mul, Nat.floor_of_nonpos hneg, Nat.zero_min]
  · have hinfinite := magnitude_of_not_finite hnan hfinite
    have hfraction : fractionField x.toBits = 0 := by
      rw [fractionField_toBits, hinfinite]
      rfl
    rw [denoted, if_pos (exponentField_eq_iff.mpr hinfinite.ge), if_pos hfraction] at h
    obtain rfl := Option.some.inj h
    show (if isNegative x = true then _ else _) = roundsOf (if isNegative x = true then ⊥ else ⊤)
    cases isNegative x with
    | false => exact min_eq_right (maxIterations_le_wholePart hinfinite)
    | true => rfl

/-- What the number of rounds is for a pattern of each kind. -/
structure CountOf (b : UInt64) (n : Nat) : Prop where
  nan : denoted b = none → n = 0
  belowOne : ∀ v, denoted b = some v → v < ((1 : ℚ) : WithBotTop ℚ) → n = 0
  tooGreat : ∀ v, denoted b = some v → ((2 ^ 64 : ℚ) : WithBotTop ℚ) ≤ v → n = 2 ^ 64 - 1
  whole : ∀ q : ℚ, denoted b = some (q : WithBotTop ℚ) → 1 ≤ q → q < 2 ^ 64 → (n : ℤ) = ⌊q⌋

theorem countOf_ofBits (b : UInt64) : CountOf b (iterationCount (.ofBits b)) := by
  have hcount : ∀ v, denoted b = some v → iterationCount (.ofBits b) = roundsOf v := by
    intro v h
    apply iterationCount_eq
    rw [toBits_ofBits_of_denoted h, h]
  constructor
  · intro h
    exact iterationCount_of_isNaN (isNaN_ofBits h)
  · intro v h hv
    rw [hcount v h]
    induction v using WithBotTop.rec with
    | bot => rfl
    | coe q =>
      show min ⌊q⌋₊ maxIterations = 0
      rw [Nat.floor_eq_zero.mpr (WithBotTop.coe_lt_coe.mp hv), Nat.zero_min]
    | top => exact absurd hv not_top_lt
  · intro v h hv
    rw [hcount v h]
    induction v using WithBotTop.rec with
    | bot => exact absurd (le_bot_iff.mp hv) (WithBotTop.coe_ne_bot _)
    | coe q =>
      have hfloor : 2 ^ 64 ≤ ⌊q⌋₊ := Nat.le_floor (by exact_mod_cast WithBotTop.coe_le_coe.mp hv)
      exact min_eq_right ((Nat.sub_le _ _).trans hfloor)
    | top => rfl
  · intro q h hone hlt
    have hpos : (0 : ℚ) ≤ q := zero_le_one.trans hone
    have hfloor : ⌊q⌋₊ < 2 ^ 64 := (Nat.floor_lt hpos).mpr (by exact_mod_cast hlt)
    have hrounds : roundsOf (q : WithBotTop ℚ) = ⌊q⌋₊ := min_eq_left (Nat.le_sub_one_of_lt hfloor)
    rw [hcount _ h, hrounds, Int.natCast_floor_eq_floor hpos]

theorem iterationCount_mono {b c : UInt64} {v w : WithBotTop ℚ} (hb : denoted b = some v)
    (hc : denoted c = some w) (h : v ≤ w) :
    iterationCount (.ofBits b) ≤ iterationCount (.ofBits c) := by
  rw [iterationCount_eq ((congrArg denoted (toBits_ofBits_of_denoted hb)).trans hb),
    iterationCount_eq ((congrArg denoted (toBits_ofBits_of_denoted hc)).trans hc)]
  exact roundsOf_mono h

/-! ## From rounds to values -/

section Counters

variable {m n : Nat}

theorem number_ofNat_mono (h : m ≤ n) (hn : n < 2 ^ 64) : number (ofNat m) ≤ number (ofNat n) := by
  rcases Nat.lt_or_eq_of_le h with hlt | rfl
  · exact (isNearest_ofNat (hlt.trans hn)).mono (isNearest_ofNat hn) (by exact_mod_cast hlt)
  · exact le_refl _

theorem iterationCount_ofNat (hn : n ≤ 2 ^ 53) : iterationCount (ofNat n) = n := by
  have hfinite := isFinite_ofNat (n := n) (by omega)
  rw [iterationCount_eq (denoted_of_isFinite hfinite), number_ofNat hn]
  show min ⌊(n : ℚ)⌋₊ maxIterations = n
  rw [Nat.floor_natCast]
  exact min_eq_left (hn.trans (by decide))

theorem ofNat_injOn (hm : m ≤ 2 ^ 53) (hn : n ≤ 2 ^ 53) (h : ofNat m = ofNat n) : m = n := by
  rw [← iterationCount_ofNat hm, h, iterationCount_ofNat hn]

end Counters

namespace Evaluation

variable {σ : Type} {ev : Evaluator σ} {body : Expr}

/-! ## Rounds -/

/-- The states in which a loop evaluates its body from the round `index` on, if it has `rounds` of
them left. A round that fails, or does not end, is the last one. -/
def roundStarts (ev : Evaluator σ) (counter : String) (body : Expr) :
    (rounds index : Nat) → State σ → List (State σ)
  | 0, _, _ => []
  | rounds + 1, index, s =>
    let t := s.set counter (Binary64.ofNat index)
    t :: match ev body t with
      | some (.ok _, u) => roundStarts ev counter body rounds (index + 1) u
      | _ => []

theorem turns_iff_mem {counter : String} {rounds index : Nat} {s t : State σ} {e : Expr} :
    Turns ev counter (.later body) rounds index s e t ↔
      e = body ∧ t ∈ roundStarts ev counter body rounds index s := by
  induction rounds generalizing index s with
  | zero =>
    constructor
    · nofun
    · rintro ⟨-, h⟩
      cases h
  | succ rounds ih =>
    constructor
    · intro h
      cases h with
      | head hlater =>
        cases hlater
        exact ⟨rfl, List.mem_cons_self⟩
      | tail hround hrest =>
        have hbody : ev body _ = some (.ok _, _) := hround
        obtain ⟨he, ht⟩ := ih.mp hrest
        refine ⟨he, List.mem_cons_of_mem _ ?_⟩
        rw [hbody]
        exact ht
    · rintro ⟨rfl, h⟩
      rcases List.mem_cons.mp h with rfl | h
      · exact .head rfl
      · split at h
        · rename_i hround
          exact .tail hround (ih.mpr ⟨rfl, h⟩)
        · cases h

theorem counters_roundStarts (ev : Evaluator σ) (body : Expr) (counter : String)
    (rounds index : Nat) (s : State σ) :
    ∃ made ≤ rounds, (roundStarts ev counter body rounds index s).map (·.get? counter) =
      (List.range' index made).map fun i => some (Binary64.ofNat i) := by
  induction rounds generalizing index s with
  | zero => exact ⟨0, le_refl _, rfl⟩
  | succ rounds ih =>
    rw [roundStarts]
    split
    · obtain ⟨made, hle, hrest⟩ := ih (index + 1) _
      refine ⟨made + 1, Nat.succ_le_succ hle, ?_⟩
      rw [List.map_cons, hrest, List.range'_succ, List.map_cons, State.get?_set, if_pos rfl]
    · refine ⟨1, Nat.succ_le_succ (Nat.zero_le _), ?_⟩
      rw [List.map_cons, State.get?_set, if_pos rfl]
      rfl

theorem length_roundStarts_le (counter : String) (rounds index : Nat) (s : State σ) :
    (roundStarts ev counter body rounds index s).length ≤ rounds := by
  obtain ⟨made, hle, hcounters⟩ := counters_roundStarts ev body counter rounds index s
  have hlength := congrArg List.length hcounters
  rw [List.length_map, List.length_map, List.length_range'] at hlength
  exact hlength.le.trans hle

theorem length_roundStarts_of_runFor {counter : String} {rounds index : Nat} {s u : State σ}
    (h : runFor ev counter (.later body) rounds index s = some (.ok (), u)) :
    (roundStarts ev counter body rounds index s).length = rounds := by
  induction rounds generalizing index s with
  | zero => rfl
  | succ rounds ih =>
    rw [runFor] at h
    obtain ⟨_, -, ⟨⟩⟩ | ⟨y, t, hround, hrest⟩ := andThen_eq_some h
    have hbody : ev body _ = some (.ok y, t) := hround
    rw [roundStarts, List.length_cons, hbody]
    exact congrArg (· + 1) (ih hrest)

/-- The values that up to `2 ^ 53` rounds are shown differ. -/
theorem nodup_counters {counter : String} {rounds : Nat} {s : State σ}
    (h : (roundStarts ev counter body rounds 0 s).length ≤ 2 ^ 53) :
    ((roundStarts ev counter body rounds 0 s).map (·.get? counter)).Nodup := by
  obtain ⟨made, -, hcounters⟩ := counters_roundStarts ev body counter rounds 0 s
  have hmade : made ≤ 2 ^ 53 := by
    have hlength := congrArg List.length hcounters
    rw [List.length_map, List.length_map, List.length_range'] at hlength
    rwa [hlength] at h
  rw [hcounters]
  refine List.Nodup.map_on (fun i hi j hj heq => ?_) List.nodup_range'
  have hi := (List.mem_range'_1.mp hi).2
  have hj := (List.mem_range'_1.mp hj).2
  exact ofNat_injOn (by omega) (by omega) (Option.some.inj heq)

/-- The states in which a counted loop evaluates its body, behind a count that has given `x` and
left `t`. -/
def loopStarts (functions : Registry σ) (fuel : Nat) (body : Expr) (x : Float) (t : State σ) :
    List (State σ) :=
  roundStarts (eval functions fuel) (counterName t.enter.depth) body (iterationCount x) 0 t.enter

theorem length_loopStarts {functions : Registry σ} {fuel : Nat} {name : String} {c : Expr}
    {x v : Float} {s t u : State σ} (hname : foldCase name = "for")
    (hc : eval functions fuel c s = some (.ok x, t))
    (h : eval functions (fuel + 1) (.call name [c, body]) s = some (.ok v, u)) :
    (loopStarts functions fuel body x t).length = iterationCount x := by
  rw [eval, evalStep, evalCall_for hname, hc] at h
  obtain ⟨o, w, hrun, ho, rfl⟩ := endFor_eq_some h
  cases o with
  | error err => cases ho
  | ok _ => exact length_roundStarts_of_runFor hrun

/-- **Loop counts and counters are exact.** The number of rounds is the whole part of what the bits
of the count denote: none for what is not a number and below one, and `2 ^ 64 - 1` from `2 ^ 64` on.
It grows with what they denote. The counter of round `n` is the double nearest to `n`, and grows
with `n`; up to `2 ^ 53` it is `n` itself, and as a count it gives `n` rounds. So no two rounds of
a loop that makes at most `2 ^ 53` show its body the same value. -/
theorem loop_counts_exact (functions : Registry σ) :
    (∀ b, CountOf b (iterationCount (.ofBits b))) ∧
    (∀ b c v w, denoted b = some v → denoted c = some w → v ≤ w →
      iterationCount (.ofBits b) ≤ iterationCount (.ofBits c)) ∧
    (∀ n : Nat, n < 2 ^ 64 → IsNearest n (ofNat n) ∧ isNegative (ofNat n) = false) ∧
    (∀ m n : Nat, m ≤ n → n < 2 ^ 64 → number (ofNat m) ≤ number (ofNat n)) ∧
    (∀ n : Nat, n ≤ 2 ^ 53 → number (ofNat n) = n ∧ iterationCount (ofNat n) = n) ∧
    (∀ m n : Nat, m < n → n ≤ 2 ^ 53 → number (ofNat m) < number (ofNat n)) ∧
    ∀ fuel name c body s x t, foldCase name = "for" → eval functions fuel c s = some (.ok x, t) →
      (∀ k e u, Starts functions (eval functions fuel) fuel k (.eval (.call name [c, body])) s e u ↔
        (k = 0 ∧ e = c ∧ u = s) ∨ (k = 1 ∧ e = body ∧ u ∈ loopStarts functions fuel body x t)) ∧
      (loopStarts functions fuel body x t).length ≤ iterationCount x ∧
      (∀ v u, eval functions (fuel + 1) (.call name [c, body]) s = some (.ok v, u) →
        (loopStarts functions fuel body x t).length = iterationCount x) ∧
      ((loopStarts functions fuel body x t).length ≤ 2 ^ 53 →
        ((loopStarts functions fuel body x t).map (·.get? (counterName (s.depth + 1)))).Nodup) := by
  refine ⟨countOf_ofBits, fun _ _ _ _ => iterationCount_mono,
    fun n hn => ⟨isNearest_ofNat hn, isNegative_ofNat hn⟩, fun m n => number_ofNat_mono,
    fun n hn => ⟨number_ofNat hn, iterationCount_ofNat hn⟩, fun m n hlt hn => ?_,
    fun fuel name c body s x t hname hc => ?_⟩
  · rw [number_ofNat hn, number_ofNat (hlt.le.trans hn)]
    exact_mod_cast hlt
  · have hdepth : s.depth + 1 = t.enter.depth :=
      congrArg (· + 1) ((eval_sound functions fuel).level _ _ _ _ hc).symm
    refine ⟨fun k e u => ?_, length_roundStarts_le _ _ _ _, fun v u => length_loopStarts hname hc,
      fun hlength => ?_⟩
    · rw [starts_for_iff hname hc, turns_iff_mem, loopStarts]
    · rw [hdepth]
      exact nodup_counters hlength

/-- The bits of `3.5` and of `2 ^ 64`, the first number that is not a double, and a loop of two
rounds. -/
theorem loop_counts_exact_two :
    (iterationCount (.ofBits 0x400c000000000000) : ℤ) = ⌊(7 / 2 : ℚ)⌋ ∧
    iterationCount (.ofBits 0x43f0000000000000) = 2 ^ 64 - 1 ∧
    IsNearest (2 ^ 53 + 1 : Nat) (ofNat (2 ^ 53 + 1)) ∧
    (loopStarts (.empty : Registry Unit) 2 (.var "iter") (ofNat 2) (.start .empty ())).length = 2 ∧
    ((loopStarts (.empty : Registry Unit) 2 (.var "iter") (ofNat 2) (.start .empty ())).map
      (·.get? (counterName 1))).Nodup := by
  have hhalf : rational 0x400c000000000000 = 7 / 2 := by
    have hsign : signBit 0x400c000000000000 = false := by decide
    have hexponent : exponentField 0x400c000000000000 = 1024 := by decide
    have hfraction : fractionField 0x400c000000000000 = 2 ^ 51 + 2 ^ 50 := by decide
    rw [rational, hsign, hexponent, hfraction]
    norm_num
  have hgreat : rational 0x43f0000000000000 = 2 ^ 64 := by
    have hsign : signBit 0x43f0000000000000 = false := by decide
    have hexponent : exponentField 0x43f0000000000000 = 1087 := by decide
    have hfraction : fractionField 0x43f0000000000000 = 0 := by decide
    rw [rational, hsign, hexponent, hfraction]
    norm_num
  obtain ⟨hcount, -, hnearest, -, hexact, -, hloop⟩ := loop_counts_exact (.empty : Registry Unit)
  have htwo : iterationCount (ofNat 2) = 2 := (hexact 2 (by decide)).2
  obtain ⟨u, hrun⟩ : ∃ u, eval (.empty : Registry Unit) 3
      (.call "for" [.num (ofNat 2), .var "iter"]) (.start .empty ()) = some (.ok 1.0, u) := by
    have hname : foldCase "for" = "for" := by decide +kernel
    simp only [eval, evalStep, andThen, evalCall_for hname, htwo, runFor, force]
    exact ⟨_, rfl⟩
  obtain ⟨-, -, hlength, hnodup⟩ := hloop 2 "for" (.num (ofNat 2)) (.var "iter") (.start .empty ())
    (ofNat 2) (.start .empty ()) rfl rfl
  have hrounds := (hlength _ _ hrun).trans htwo
  refine ⟨?_, ?_, (hnearest (2 ^ 53 + 1) (by decide)).1, hrounds,
    hnodup (hrounds.le.trans (by decide))⟩
  · refine (hcount 0x400c000000000000).whole (7 / 2) ?_ (by norm_num) (by norm_num)
    rw [← hhalf]
    rfl
  · refine (hcount 0x43f0000000000000).tooGreat ((2 ^ 64 : ℚ) : WithBotTop ℚ) ?_ (le_refl _)
    rw [← hgreat]
    rfl

end Evaluation
end FormulaLang
