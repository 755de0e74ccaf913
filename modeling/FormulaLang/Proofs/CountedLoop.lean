import FormulaLang.Proofs.HostCalls
import FormulaLang.Proofs.LoopDepth

/-!
# FormulaLang.Proofs.CountedLoop

What a counted loop does when it ends well, round by round. `RoundsFrom` gives the state in front of
each round: a round writes the counter and evaluates the body, and that leads to the next one.

* `exists_rounds`: every loop that ends well has made its rounds, as many as its count says.
* `starts_loop_iff`: it has evaluated its count once and its body once in each round, and nothing
  else.
* `effects_loop`: its effects are those of the count, and for each round the write of the counter
  and the effects of the body.
-/

namespace FormulaLang
namespace Evaluation

open BigStep (atDepth)
open Binary64 (ofNat)

variable {σ : Type}

/-- The state in which a round evaluates the body, if the loop has come to `s` and the counter is
to show `v`. The loop has been entered, so its counter is that of the depth. -/
def turn (s : State σ) (v : Float) : State σ := s.set (counterName s.depth) v

/-- Rounds of a counted loop from the index `first` on. In front of round `first + i` the loop is in
`before i`, and `before n` is where the last one leads. -/
structure RoundsFrom (ev : Evaluator σ) (body : Expr) (n first : Nat) (s u : State σ)
    (before : Nat → State σ) : Prop where
  start : before 0 = s
  stop : before n = u
  depth : ∀ i ≤ n, (before i).depth = s.depth
  round : ∀ i < n, ∃ y, ev body (turn (before i) (ofNat (first + i))) = some (.ok y, before (i + 1))

section Rounds

variable {ev : Evaluator σ} {body : Expr} {n first : Nat} {s u : State σ}
  {before : Nat → State σ}

theorem RoundsFrom.tail (h : RoundsFrom ev body (n + 1) first s u before) :
    RoundsFrom ev body n (first + 1) (before 1) u fun i => before (i + 1) where
  start := rfl
  stop := h.stop
  depth i hi := (h.depth (i + 1) (by omega)).trans (h.depth 1 (by omega)).symm
  round i hi := by
    have hround := h.round (i + 1) (by omega)
    rwa [← Nat.add_assoc, Nat.add_right_comm] at hround

theorem RoundsFrom.head (h : RoundsFrom ev body (n + 1) first s u before) :
    ∃ y, ev body (turn s (ofNat first)) = some (.ok y, before 1) := by
  have hround := h.round 0 (by omega)
  rwa [h.start] at hround

theorem RoundsFrom.cons (hev : Level ev) {t : State σ} {y : Float}
    (hround : ev body (turn s (ofNat first)) = some (.ok y, t))
    (h : RoundsFrom ev body n (first + 1) t u before) :
    ∃ before', RoundsFrom ev body (n + 1) first s u before' := by
  have ht : t.depth = s.depth := hev body (turn s (ofNat first)) _ _ hround
  refine ⟨fun i => i.casesOn s before, rfl, h.stop, ?_, ?_⟩
  · intro i hi
    cases i with
    | zero => rfl
    | succ i => exact (h.depth i (by omega)).trans ht
  · intro i hi
    cases i with
    | zero =>
      show ∃ y, ev body (turn s (ofNat first)) = some (.ok y, before 0)
      rw [h.start]
      exact ⟨y, hround⟩
    | succ i =>
      have hnext := h.round i (by omega)
      rwa [Nat.add_assoc, Nat.add_comm 1] at hnext

theorem exists_rounds_of_runFor (hev : Level ev)
    (h : runFor ev (counterName s.depth) (.later body) n first s = some (.ok (), u)) :
    ∃ before, RoundsFrom ev body n first s u before := by
  induction n generalizing first s with
  | zero =>
    cases h
    exact ⟨fun _ => u, rfl, rfl, fun _ _ => rfl, fun i hi => absurd hi (Nat.not_lt_zero i)⟩
  | succ n ih =>
    rw [runFor] at h
    obtain ⟨_, -, ⟨⟩⟩ | ⟨y, t, hround, hrest⟩ := andThen_eq_some h
    have ht : t.depth = s.depth := hev body (turn s (ofNat first)) _ _ hround
    rw [← ht] at hrest
    obtain ⟨before, hbefore⟩ := ih hrest
    exact hbefore.cons hev hround

theorem RoundsFrom.turns_iff (h : RoundsFrom ev body n first s u before) {e : Expr} {t : State σ} :
    Turns ev (counterName s.depth) (.later body) n first s e t ↔
      e = body ∧ ∃ i < n, t = turn (before i) (ofNat (first + i)) := by
  induction n generalizing first s before with
  | zero =>
    constructor
    · nofun
    · rintro ⟨-, i, hi, -⟩
      exact absurd hi (Nat.not_lt_zero i)
  | succ n ih =>
    have hdepth : (before 1).depth = s.depth := h.depth 1 (by omega)
    obtain ⟨y, hround⟩ := h.head
    constructor
    · intro hturns
      cases hturns with
      | head hlater =>
        cases hlater
        exact ⟨rfl, 0, Nat.succ_pos n, by rw [h.start]; rfl⟩
      | tail hfirst hrest =>
        obtain rfl : before 1 = _ :=
          (Prod.mk.inj (Option.some.inj (hround.symm.trans hfirst))).2
        rw [← hdepth] at hrest
        obtain ⟨he, i, hi, ht⟩ := (ih h.tail).mp hrest
        exact ⟨he, i + 1, by omega, by rw [ht, Nat.add_assoc, Nat.add_comm 1]⟩
    · rintro ⟨rfl, i, hi, rfl⟩
      cases i with
      | zero =>
        rw [h.start]
        exact .head rfl
      | succ i =>
        refine .tail hround ?_
        rw [← hdepth]
        exact (ih h.tail).mpr ⟨rfl, i, by omega, by rw [Nat.add_assoc, Nat.add_comm 1]⟩

end Rounds

/-! ## A whole loop -/

section Loop

variable {functions : Registry σ} {fuel : Nat} {name : String} {c body : Expr} {s t u : State σ}
  {x v : Float} {before : Nat → State σ}

theorem exists_rounds (hname : foldCase name = "for")
    (h : eval functions (fuel + 1) (.call name [c, body]) s = some (.ok v, u)) :
    ∃ x t w before, eval functions fuel c s = some (.ok x, t) ∧ u = w.leave ∧
      RoundsFrom (eval functions fuel) body (iterationCount x) 0 t.enter w before := by
  rw [eval, evalStep, evalCall_for hname] at h
  obtain ⟨_, -, ⟨⟩⟩ | ⟨x, t, hc, hloop⟩ := andThen_eq_some h
  obtain ⟨o, w, hrun, ho, rfl⟩ := endFor_eq_some hloop
  cases o with
  | error err => cases ho
  | ok _ =>
    obtain ⟨before, hbefore⟩ :=
      exists_rounds_of_runFor (eval_sound functions fuel).level hrun
    exact ⟨x, t, w, before, hc, rfl, hbefore⟩

theorem depth_before (hc : eval functions fuel c s = some (.ok x, t))
    (h : RoundsFrom (eval functions fuel) body (iterationCount x) 0 t.enter u before) :
    ∀ i ≤ iterationCount x, (before i).depth = s.depth + 1 := by
  intro i hi
  have ht : t.depth = s.depth := (eval_sound functions fuel).level _ _ _ _ hc
  rw [h.depth i hi, State.enter, ht]

/-- The count is evaluated outside the loop, and the body inside it by the turns the loop takes. -/
theorem starts_for_iff (hname : foldCase name = "for") {ev : Evaluator σ} {rounds : Nat}
    (hc : ev c s = some (.ok x, t)) {k : Nat} {e : Expr} {w : State σ} :
    Starts functions ev rounds k (.eval (.call name [c, body])) s e w ↔
      (k = 0 ∧ e = c ∧ w = s) ∨
        (k = 1 ∧
          Turns ev (counterName t.enter.depth) (.later body) (iterationCount x) 0 t.enter e w) := by
  have hb := find?_for hname
  constructor
  · intro hstarts
    cases hstarts with
    | called hcall =>
      cases hcall with
      | hostArgument hnone _ _ _ =>
        rw [hb] at hnone
        cases hnone
      | argument hb' _ hprepares =>
        cases hb.symm.trans hb'
        cases hprepares with
        | head _ => exact .inl ⟨rfl, rfl, rfl⟩
        | tail _ hbody =>
          cases hbody with
          | head hmode => cases hmode
          | tail _ hnone => cases hnone
      | ruled hb' _ hrule has hcontrols =>
        cases hb.symm.trans hb'
        cases hrule
        cases (evalArguments_loop hc).symm.trans has
        cases hcontrols with
        | turn hcount hbody =>
          cases hcount
          exact .inr ⟨rfl, hbody⟩
  · rintro (⟨rfl, rfl, rfl⟩ | ⟨rfl, hturns⟩)
    · exact .called (.argument hb rfl (.head rfl))
    · exact .called (.ruled hb rfl rfl (evalArguments_loop hc) (.turn rfl hturns))

theorem starts_loop_iff (hname : foldCase name = "for") {ev : Evaluator σ} {rounds : Nat}
    (hc : ev c s = some (.ok x, t))
    (h : RoundsFrom ev body (iterationCount x) 0 t.enter u before) {k : Nat} {e : Expr}
    {w : State σ} :
    Starts functions ev rounds k (.eval (.call name [c, body])) s e w ↔
      (k = 0 ∧ e = c ∧ w = s) ∨
        (k = 1 ∧ e = body ∧ ∃ i < iterationCount x, w = turn (before i) (ofNat i)) := by
  rw [starts_for_iff hname hc, h.turns_iff]
  simp only [Nat.zero_add]

theorem effects_andThen_stop {α : Type} (m : Script σ α) (o : Except EvalError Float) (s : State σ) :
    (m.andThen fun _ => .stop o).effects s = m.effects s := by
  rw [Script.effects_andThen, Script.furtherEffects]
  split
  · exact List.append_nil _
  · exact List.append_nil _

theorem effects_rounds (m : Script σ Float) {n first : Nat}
    {before : Nat → State σ} {depth : Nat} (hdepth : ∀ i ≤ n, (before i).depth = depth)
    (hround : ∀ i < n, ∃ y,
      m.perform (turn (before i) (ofNat (first + i))) = some (.ok y, before (i + 1))) :
    (Script.rounds (counterName depth) m n first).effects (before 0) =
      (List.range n).flatMap fun i =>
        .write (counterName depth) (ofNat (first + i)) ::
          m.effects (turn (before i) (ofNat (first + i))) := by
  induction n generalizing first before with
  | zero => rfl
  | succ n ih =>
    have hturn : turn (before 0) (ofNat first) =
        (before 0).set (counterName depth) (ofNat first) := by
      rw [turn, hdepth 0 (Nat.zero_le _)]
    obtain ⟨y, hfirst⟩ := hround 0 (Nat.succ_pos n)
    rw [Nat.add_zero, hturn] at hfirst
    have ih := @ih (first + 1) (fun i => before (i + 1)) (fun i hi => hdepth (i + 1) (by omega))
      (fun i hi => by
        have hnext := hround (i + 1) (by omega)
        rwa [← Nat.add_assoc, Nat.add_right_comm] at hnext)
    rw [Script.rounds, Script.effects, Script.effects_andThen, Script.furtherEffects, hfirst]
    simp only [List.range_succ_eq_map, List.flatMap_cons, List.flatMap_map, Nat.add_zero, hturn]
    rw [ih, List.cons_append]
    simp only [Nat.add_assoc, Nat.add_comm 1, Nat.succ_eq_add_one]

theorem effects_loop (hname : foldCase name = "for")
    (hc : eval functions fuel c s = some (.ok x, t))
    (h : RoundsFrom (eval functions fuel) body (iterationCount x) 0 t.enter u before) :
    effects functions (fuel + 1) [.call name [c, body]] s =
      effects functions fuel [c] s ++ (List.range (iterationCount x)).flatMap fun i =>
        .write (counterName (s.depth + 1)) (ofNat i) ::
          effects functions fuel [body] (turn (before i) (ofNat i)) := by
  have hdepth := depth_before hc h
  have hround : ∀ i < iterationCount x, ∃ y,
      (body.script functions fuel (s.depth + 1)).perform (turn (before i) (ofNat (0 + i))) =
        some (.ok y, before (i + 1)) := by
    intro i hi
    obtain ⟨y, hy⟩ := h.round i hi
    have hturn : (turn (before i) (ofNat (0 + i))).depth = s.depth + 1 := hdepth i hi.le
    rw [eval_eq_perform, hturn] at hy
    exact ⟨y, hy⟩
  -- the script of the rounds knows nothing of the loop that has been entered
  have hrounds := effects_rounds _ hdepth hround
  rw [h.start, show t.enter = atDepth t (t.depth + 1) from rfl, Script.effects_atDepth] at hrounds
  rw [eval_eq_perform] at hc
  rw [effects_call, Script.invoke_for hname, Script.effects_andThen, Script.furtherEffects, hc]
  show effects functions fuel [c] s ++ Script.effects _ t = _
  rw [effects_andThen_stop, hrounds, List.flatMap_congr]
  intro i hi
  have hturn : (turn (before i) (ofNat i)).depth = s.depth + 1 := hdepth i (List.mem_range.mp hi).le
  rw [Nat.zero_add, effects, hturn]
  rfl

end Loop

end Evaluation
end FormulaLang
