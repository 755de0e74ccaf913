import FormulaLang.Proofs.CountedLoop

/-!
# FormulaLang.Proofs.Counters

Counters of loops that run inside each other. Each depth has its own counter
(`counterName_injective`), and a loop writes only counters of greater depths than the one it is
evaluated at. So what is evaluated inside a loop, at any depth, leaves the counter of that loop
alone unless it assigns to it: `Holds` is kept by everything that an expression comes to evaluate,
rule by rule.

Main statement: a counted loop that ends well evaluates its body once in each round, begins each
round with its counter at the index, and keeps it there if the body does not assign to it
(`counter_kept`).
-/

namespace FormulaLang

/-! ## The counters -/

theorem counterName_injective {a b : Nat} (ha : 1 ≤ a) (hb : 1 ≤ b)
    (h : counterName a = counterName b) : a = b := by
  have hlonger : ∀ n : Nat, "iter" ≠ "iter" ++ n.repr := by
    intro n heq
    have hlength := congrArg String.length heq
    have hpos := @Nat.length_repr_pos n
    rw [String.length_append] at hlength
    omega
  unfold counterName at h
  split at h
  · split at h
    · omega
    · exact absurd h (hlonger b)
  · split at h
    · exact absurd h.symm (hlonger a)
    · exact Nat.repr_inj.mp ((String.append_right_inj "iter").mp h)

mutual

theorem Expr.levels_pos : ∀ {e : Expr} {k : Nat}, k ∈ e.levels → 1 ≤ k
  | .num _, k, h => by cases h
  | .var _, k, h => by cases h
  | .assign _ value, k, h => Expr.levels_pos (e := value) h
  | .binary _ left right, k, h => by
    rcases List.mem_append.mp h with h | h
    · exact Expr.levels_pos h
    · exact Expr.levels_pos h
  | .call name es, k, h => by
    by_cases hloop : foldCase name ≠ "for" ∨ es.length ≠ 2
    · rw [levels_call hloop] at h
      exact Expr.levelsOf_pos h
    · obtain ⟨hname, hlen⟩ := not_or.mp hloop
      obtain ⟨c, body, rfl⟩ := List.length_eq_two.mp (not_not.mp hlen)
      rw [levels_for (not_not.mp hname)] at h
      rcases List.mem_cons.mp h with rfl | h
      · exact Nat.le_refl 1
      rcases List.mem_append.mp h with h | h
      · exact @Expr.levelsOf_pos [c, body] k (levels_subset_of_mem List.mem_cons_self h)
      · obtain ⟨j, -, rfl⟩ := List.mem_map.mp h
        exact Nat.le_add_right 1 j
  | .quote p, k, h => @Expr.levelsOf_pos p k h

theorem Expr.levelsOf_pos : ∀ {es : List Expr} {k : Nat}, k ∈ Expr.levelsOf es → 1 ≤ k
  | [], k, h => by cases h
  | e :: es, k, h => by
    rcases List.mem_append.mp h with h | h
    · exact Expr.levels_pos h
    · exact Expr.levelsOf_pos h

end

def Expr.Spares (name : String) (e : Expr) : Prop := ∀ value, .assign name value ∉ e.nodes

theorem Expr.Spares.part {name : String} {e part : Expr} (h : e.Spares name)
    (hpart : part.nodes ⊆ e.nodes) : part.Spares name :=
  fun value hmem => h value (hpart hmem)

/-- The tree of a loop's body can only write counters of deeper loops, if it does not assign. -/
theorem Expr.Spares.not_mayWrite {d depth : Nat} {e : Expr} (h : e.Spares (counterName d))
    (hd : 1 ≤ d) (hle : d ≤ depth) : ¬MayWrite e.nodes e.levels depth (counterName d) := by
  rintro (⟨value, hmem⟩ | ⟨k, hk, hname⟩)
  · exact h value hmem
  · have hpos := Expr.levels_pos hk
    have heq := counterName_injective hd (by omega) hname
    omega

namespace Evaluation

open Binary64 (Converts converts_ofNat number_ofNat ofNat)

variable {σ : Type}

/-! ## What is evaluated inside a loop -/

/-- At least `d` loops are running, and the counter of the loop with that number has the value. -/
structure Holds (d : Nat) (x : Float) (s : State σ) : Prop where
  le : d ≤ s.depth
  get : s.get? (counterName d) = some x

section Holds

variable {d : Nat} {x : Float} {s t : State σ}

theorem Holds.enter (h : Holds d x s) : Holds d x s.enter := ⟨Nat.le_succ_of_le h.le, h.get⟩

/-- The counter of a deeper loop is another variable. -/
theorem Holds.set (h : Holds d x s) (hd : 1 ≤ d) {deeper : Nat} (hlt : d < deeper) (y : Float) :
    Holds d x (s.set (counterName deeper) y) := by
  refine ⟨h.le, ?_⟩
  have hne : counterName d ≠ counterName deeper := by
    intro heq
    have := counterName_injective hd (by omega) heq
    omega
  rw [State.get?_set, if_neg hne, h.get]

theorem Holds.of_eval {functions : Registry σ} {fuel : Nat} (hd : 1 ≤ d) {e : Expr}
    (he : e.Spares (counterName d)) (h : Holds d x s) {o : Except EvalError Float}
    (heval : eval functions fuel e s = some (o, t)) : Holds d x t := by
  refine ⟨?_, ?_⟩
  · rw [(eval_sound functions fuel).level _ _ _ _ heval]
    exact h.le
  · rw [(eval_writes_only heval).same _ (he.not_mayWrite hd h.le), h.get]

end Holds

/-- The evaluator leaves the counter alone, wherever the expression does not assign to it. -/
def Leaves (ev : Evaluator σ) (d : Nat) (x : Float) : Prop :=
  ∀ e s o t, e.Spares (counterName d) → Holds d x s → ev e s = some (o, t) → Holds d x t

section Starts

variable {functions : Registry σ} {ev : Evaluator σ} {rounds k d : Nat} {x : Float} {e : Expr}
  {s t : State σ}

theorem Each.holds (hev : Leaves ev d x) {es : List Expr} (h : Each ev es s e t)
    (hes : ∀ e ∈ es, e.Spares (counterName d)) (hs : Holds d x s) : e ∈ es ∧ Holds d x t := by
  induction h with
  | head => exact ⟨List.mem_cons_self, hs⟩
  | @tail e e' es y s t u hhead _ ih =>
    obtain ⟨hmem, hu⟩ := ih (fun e he => hes e (List.mem_cons_of_mem _ he))
      (hev _ _ _ _ (hes e List.mem_cons_self) hs hhead)
    exact ⟨List.mem_cons_of_mem e hmem, hu⟩

theorem evalArgument_holds (hev : Leaves ev d x) {mode : Mode} {a : LazyArg}
    (h : evalArgument ev mode e s = some (.ok a, t)) (he : e.Spares (counterName d))
    (hs : Holds d x s) : Holds d x t ∧ ∀ e', a = .later e' → e' = e := by
  cases mode with
  | eager =>
    obtain ⟨_, -, ⟨⟩⟩ | ⟨y, u, heval, hvalue⟩ := andThen_eq_some h
    cases hvalue
    exact ⟨hev _ _ _ _ he hs heval, nofun⟩
  | deferred =>
    cases h
    exact ⟨hs, fun _ hlater => (LazyArg.later.inj hlater).symm⟩

theorem Prepares.holds (hev : Leaves ev d x) {modes : List Mode} {es : List Expr}
    (h : Prepares ev modes es s e t) (hes : ∀ e ∈ es, e.Spares (counterName d))
    (hs : Holds d x s) : e ∈ es ∧ Holds d x t := by
  induction h with
  | head _ => exact ⟨List.mem_cons_self, hs⟩
  | @tail modes e e' es a s t u hhead _ ih =>
    obtain ⟨ht, -⟩ := evalArgument_holds hev hhead (hes e List.mem_cons_self) hs
    obtain ⟨hmem, hu⟩ := ih (fun e he => hes e (List.mem_cons_of_mem _ he)) ht
    exact ⟨List.mem_cons_of_mem e hmem, hu⟩

theorem evalArguments_holds (hev : Leaves ev d x) {modes : List Mode} {es : List Expr}
    {as : List LazyArg} (h : evalArguments ev modes es s = some (.ok as, t))
    (hes : ∀ e ∈ es, e.Spares (counterName d)) (hs : Holds d x s) :
    Holds d x t ∧ ∀ e, .later e ∈ as → e ∈ es := by
  induction es generalizing modes s as with
  | nil =>
    cases h
    exact ⟨hs, nofun⟩
  | cons e es ih =>
    rw [evalArguments] at h
    obtain ⟨_, -, ⟨⟩⟩ | ⟨a, u, hhead, hrest⟩ := andThen_eq_some h
    obtain ⟨_, -, ⟨⟩⟩ | ⟨bs, w, htail, hvalue⟩ := andThen_eq_some hrest
    cases hvalue
    obtain ⟨hu, hlater⟩ := evalArgument_holds hev hhead (hes e List.mem_cons_self) hs
    obtain ⟨ht, hmem⟩ := ih htail (fun e he => hes e (List.mem_cons_of_mem _ he)) hu
    refine ⟨ht, fun e' he' => ?_⟩
    rcases List.mem_cons.mp he' with heq | he'
    · rw [hlater e' heq.symm]
      exact List.mem_cons_self
    · exact List.mem_cons_of_mem e (hmem e' he')

/-- The arguments of a rule that are still to be evaluated do not assign to the counter. -/
def SparesLater (d : Nat) (as : List LazyArg) : Prop :=
  ∀ e, .later e ∈ as → e.Spares (counterName d)

theorem force_holds (hev : Leaves ev d x) {a : LazyArg} {o : Except EvalError Float}
    (h : force ev a s = some (o, t)) (ha : SparesLater d [a]) (hs : Holds d x s) :
    Holds d x t := by
  cases a with
  | now y =>
    cases h
    exact hs
  | later e => exact hev e s o t (ha e List.mem_cons_self) hs h

theorem SparesLater.head {a : LazyArg} {as : List LazyArg} (h : SparesLater d (a :: as)) :
    SparesLater d [a] := by
  intro e he
  rw [List.mem_singleton] at he
  exact h e (he ▸ List.mem_cons_self)

theorem SparesLater.tail {a : LazyArg} {as : List LazyArg} (h : SparesLater d (a :: as)) :
    SparesLater d as :=
  fun e he => h e (List.mem_cons_of_mem a he)

theorem Turns.holds (hev : Leaves ev d x) (hd : 1 ≤ d) {deeper : Nat} (hlt : d < deeper)
    {body : LazyArg} {n index : Nat} (h : Turns ev (counterName deeper) body n index s e t)
    (hbody : SparesLater d [body]) (hs : Holds d x s) : .later e = body ∧ Holds d x t := by
  induction h with
  | head hlater => exact ⟨hlater.symm, hs.set hd hlt _⟩
  | tail hround _ ih => exact ih (force_holds hev hround hbody (hs.set hd hlt _))

theorem Loops.holds (hev : Leaves ev d x) {condition body : LazyArg} {n : Nat}
    (h : Loops ev condition body n s e t) (hcondition : SparesLater d [condition])
    (hbody : SparesLater d [body]) (hs : Holds d x s) :
    (.later e = condition ∨ .later e = body) ∧ Holds d x t := by
  induction h with
  | check hlater => exact ⟨.inl hlater.symm, hs⟩
  | body hcheck _ hlater => exact ⟨.inr hlater.symm, force_holds hev hcheck hcondition hs⟩
  | again hcheck _ hround _ ih =>
    exact ih (force_holds hev hround hbody (force_holds hev hcheck hcondition hs))

theorem Controls.holds (hev : Leaves ev d x) (hd : 1 ≤ d) {c : Control} {as : List LazyArg}
    (h : Controls ev rounds k c as s e t) (has : SparesLater d as) (hs : Holds d x s) :
    .later e ∈ as ∧ Holds d x t := by
  cases h with
  | condition => exact ⟨List.mem_cons_self, hs⟩
  | yes hc _ => exact ⟨by simp, force_holds hev hc has.head hs⟩
  | no hc _ => exact ⟨by simp, force_holds hev hc has.head hs⟩
  | number => exact ⟨List.mem_cons_self, hs⟩
  | turn hc hturn =>
    have ht := force_holds hev hc has.head hs
    have hlt := Nat.lt_succ_of_le ht.le
    obtain ⟨hlater, hu⟩ := hturn.holds hev hd hlt has.tail.head ht.enter
    exact ⟨by rw [hlater]; simp, hu⟩
  | loop hloop =>
    obtain ⟨hlater | hlater, hu⟩ := hloop.holds hev has.head has.tail.head hs
    · exact ⟨by rw [hlater]; simp, hu⟩
    · exact ⟨by rw [hlater]; simp, hu⟩

theorem Starts.holds_call (hev : Leaves ev d x) (hd : 1 ≤ d) {name : String} {es : List Expr}
    (h : Starts functions ev rounds k (.call name es) s e t)
    (hes : ∀ e ∈ es, e.Spares (counterName d)) (hs : Holds d x s) : e ∈ es ∧ Holds d x t := by
  cases h with
  | hostArgument _ _ _ heach => exact heach.holds hev hes hs
  | argument _ _ hprepares => exact hprepares.holds hev hes hs
  | ruled _ _ _ has hcontrols =>
    obtain ⟨hu, hlater⟩ := evalArguments_holds hev has hes hs
    obtain ⟨hmem, ht⟩ := hcontrols.holds hev hd (fun e he => hes e (hlater e he)) hu
    exact ⟨hlater e hmem, ht⟩

/-- One step inwards: the evaluations that an evaluation starts find the counter as it was. -/
theorem Starts.holds (hev : Leaves ev d x) (hd : 1 ≤ d) {e' : Expr}
    (h : Starts functions ev rounds k (.eval e) s e' t) (he : e.Spares (counterName d))
    (hs : Holds d x s) : e'.Spares (counterName d) ∧ Holds d x t := by
  have hlist : ∀ es : List Expr, Expr.nodesOf es ⊆ e.nodes →
      ∀ e ∈ es, e.Spares (counterName d) :=
    fun es hsub e hmem => he.part (List.Subset.trans (Expr.nodes_subset_of_mem hmem) hsub)
  cases h with
  | assigned => exact ⟨he.part (List.subset_cons_self _ _), hs⟩
  | @operand op left right _ _ _ heach =>
    have hes := hlist [left, right] (by simp [Expr.nodes, Expr.nodesOf])
    obtain ⟨hmem, ht⟩ := heach.holds hev hes hs
    exact ⟨hes e' hmem, ht⟩
  | called hcall =>
    have hes := hlist _ (List.subset_cons_self _ _)
    obtain ⟨hmem, ht⟩ := hcall.holds_call hev hd hes hs
    exact ⟨hes e' hmem, ht⟩
  | quoted heach =>
    have hes := hlist _ (List.subset_cons_self _ _)
    obtain ⟨hmem, ht⟩ := heach.holds hev hes hs
    exact ⟨hes e' hmem, ht⟩

end Starts

theorem Reaches.holds {functions : Registry σ} {fuel k d : Nat} (hd : 1 ≤ d) {x : Float}
    {op : Operation} {e e' : Expr} {s t : State σ} (h : Reaches functions fuel k op s e' t)
    (hop : op = .eval e) (he : e.Spares (counterName d)) (hs : Holds d x s) : Holds d x t := by
  have hleaves : ∀ fuel, Leaves (eval functions fuel) d x :=
    fun fuel e s o t he hs heval => hs.of_eval hd he heval
  induction h generalizing e with
  | direct hstarts =>
    subst hop
    exact (hstarts.holds (hleaves _) hd he hs).2
  | through hstarts _ ih =>
    subst hop
    obtain ⟨he', ht⟩ := hstarts.holds (hleaves _) hd he hs
    exact ih rfl he' ht

/-! ## The rounds of a loop -/

theorem writes_of_mem_effects {α : Type} {F : Footprint} {post : α → Prop} {m : Script σ α}
    (hm : m.Within F post) {s : State σ} {name : String} {x : Float}
    (h : .write name x ∈ m.effects s) : F.writes name := by
  induction m generalizing s with
  | stop o => cases h
  | starve => cases h
  | read n next ih =>
    cases hx : s.get? n with
    | none =>
      rw [Script.effects_read_none next hx] at h
      cases h
    | some y =>
      rw [Script.effects_read_some next hx] at h
      exact ih y (hm.2 y) h
  | write n y next ih =>
    rcases List.mem_cons.mp h with heq | h
    · cases heq
      exact hm.1
    · exact ih hm.2 h
  | call n f xs next ih =>
    rcases List.mem_cons.mp h with heq | h
    · cases heq
    · exact ih _ (hm _) h

/-- The variable has the value during an evaluation of `e` that leads from `s` to `t`: at both
ends, wherever an expression is evaluated on the way, and no effect is a write of it. -/
structure Steady (functions : Registry σ) (fuel : Nat) (name : String) (x : Float) (e : Expr)
    (s t : State σ) : Prop where
  start : s.get? name = some x
  inside : ∀ fuel' k e' u, Reaches functions fuel' k (.eval e) s e' u → u.get? name = some x
  unwritten : ∀ y, .write name y ∉ effects functions fuel [e] s
  stop : t.get? name = some x

theorem Holds.steady {functions : Registry σ} {fuel d : Nat} (hd : 1 ≤ d) {x : Float} {e : Expr}
    {s t : State σ} {o : Except EvalError Float} (hs : Holds d x s)
    (he : e.Spares (counterName d)) (h : eval functions fuel e s = some (o, t)) :
    Steady functions fuel (counterName d) x e s t where
  start := hs.get
  inside _ _ _ _ hreaches := (hreaches.holds hd rfl he hs).get
  unwritten _ hwrite :=
    he.not_mayWrite hd hs.le (writes_of_mem_effects (script_confined functions fuel s.depth e) hwrite)
  stop := (hs.of_eval hd he h).get

theorem holds_turn {s : State σ} (v : Float) : Holds s.depth v (turn s v) := by
  refine ⟨Nat.le_refl _, ?_⟩
  rw [turn, State.get?_set, if_pos rfl]

/-- How a counted loop ends well. The count leads from `s` to `t`, the loop is entered there, and it
is left with `u`; in front of round `i` it is in `before i`, and the round is shown `shown i`. -/
structure CountedRun (functions : Registry σ) (fuel : Nat) (name : String) (c body : Expr)
    (s t u : State σ) (x : Float) (before : Nat → State σ) (shown : Nat → Float) : Prop where
  count : eval functions fuel c s = some (.ok x, t)
  entered : before 0 = t.enter
  left : u = (before (iterationCount x)).leave
  converts : ∀ i < iterationCount x,
    Converts i (shown i) ∧ (i ≤ 2 ^ 53 → Binary64.number (shown i) = i)
  /-- A round begins one loop deeper, with the counter of that depth at its index, and the
  evaluation of the body there leads to the next round. -/
  round : ∀ i < iterationCount x, (turn (before i) (shown i)).depth = s.depth + 1 ∧
    (turn (before i) (shown i)).get? (counterName (s.depth + 1)) = some (shown i) ∧
    ∃ y, eval functions fuel body (turn (before i) (shown i)) = some (.ok y, before (i + 1))
  /-- Nothing is evaluated but the count, and the body in each round. -/
  started : ∀ k e w,
    Starts functions (eval functions fuel) fuel k (.eval (.call name [c, body])) s e w ↔
      (k = 0 ∧ e = c ∧ w = s) ∨
        (k = 1 ∧ e = body ∧ ∃ i < iterationCount x, w = turn (before i) (shown i))
  effects : effects functions (fuel + 1) [.call name [c, body]] s =
    effects functions fuel [c] s ++ (List.range (iterationCount x)).flatMap fun i =>
      .write (counterName (s.depth + 1)) (shown i) ::
        effects functions fuel [body] (turn (before i) (shown i))
  steady : body.Spares (counterName (s.depth + 1)) → ∀ i < iterationCount x,
    Steady functions fuel (counterName (s.depth + 1)) (shown i) body (turn (before i) (shown i))
      (before (i + 1))
  last : body.Spares (counterName (s.depth + 1)) → ∀ m, iterationCount x = m + 1 →
    u.get? (counterName (s.depth + 1)) = some (shown m)
  empty : iterationCount x = 0 → u = t

/-- **Counters are neither lost nor taken by other loops.** Depths have different counters. A loop
that ends well evaluates its body as often as its count says, and round `i` begins with the counter
at the double nearest to `i`, which up to `2 ^ 53` is `i` itself, whatever the body assigns. If the
body does not assign to the counter, this has that value during all of round `i`, whatever loops run
inside, and that of the last round behind the loop. A loop without rounds changes nothing behind its
count. -/
theorem counter_kept {functions : Registry σ} {fuel : Nat} {name : String} {c body : Expr}
    {s u : State σ} {v : Float} (hname : foldCase name = "for")
    (h : eval functions (fuel + 1) (.call name [c, body]) s = some (.ok v, u)) :
    (∀ a b, 1 ≤ a → 1 ≤ b → counterName a = counterName b → a = b) ∧
    ∃ t x before shown, CountedRun functions fuel name c body s t u x before shown := by
  obtain ⟨x, t, w, before, hc, rfl, hrounds⟩ := exists_rounds hname h
  have hcount := iterationCount_lt x
  have hdepth := depth_before hc hrounds
  have hround : ∀ i < iterationCount x, ∃ y,
      eval functions fuel body (turn (before i) (ofNat i)) = some (.ok y, before (i + 1)) := by
    intro i hi
    have hi := hrounds.round i hi
    rwa [Nat.zero_add] at hi
  have hturn : ∀ i < iterationCount x,
      Holds (s.depth + 1) (ofNat i) (turn (before i) (ofNat i)) := by
    intro i hi
    rw [← hdepth i hi.le]
    exact holds_turn (ofNat i)
  have hsteady : body.Spares (counterName (s.depth + 1)) → ∀ i < iterationCount x,
      Steady functions fuel (counterName (s.depth + 1)) (ofNat i) body
        (turn (before i) (ofNat i)) (before (i + 1)) := by
    intro hspares i hi
    obtain ⟨y, hy⟩ := hround i hi
    exact (hturn i hi).steady (Nat.le_add_left 1 _) hspares hy
  refine ⟨fun a b => counterName_injective, t, x, before, ofNat, ?_⟩
  constructor
  · exact hc
  · exact hrounds.start
  · rw [hrounds.stop]
  · exact fun i hi => ⟨converts_ofNat (by omega), number_ofNat⟩
  · exact fun i hi => ⟨hdepth i hi.le, (hturn i hi).get, hround i hi⟩
  · exact fun k e w => starts_loop_iff hname hc hrounds
  · exact effects_loop hname hc hrounds
  · exact hsteady
  · intro hspares m hm
    rw [← hrounds.stop, hm]
    exact (hsteady hspares m (by omega)).stop
  · intro hzero
    rw [← hrounds.stop, hzero, hrounds.start]
    rfl

/-- Loops run in the body of another and in the count of that one. The index of the last round of
the outer loop is what its counter shows behind it. -/
theorem counter_kept_nested : ∃ u,
    eval (.empty : Registry Unit) 5
        (.call "for" [.num 2.0, .call "FOR" [.call "for" [.num 1.0, .num 7.0], .num 8.0]])
        (.start .empty ()) = some (.ok 1.0, u) ∧
      u.get? "iter" = some 1.0 := by
  have htwo : iterationCount 2.0 = 2 := by decide +kernel
  have hone : iterationCount 1.0 = 1 := by decide +kernel
  have hlower : foldCase "for" = "for" := by decide +kernel
  have hupper : foldCase "FOR" = "for" := by decide +kernel
  obtain ⟨u, hrun⟩ : ∃ u, eval (.empty : Registry Unit) 5
      (.call "for" [.num 2.0, .call "FOR" [.call "for" [.num 1.0, .num 7.0], .num 8.0]])
      (.start .empty ()) = some (.ok 1.0, u) := by
    simp only [eval, evalStep, andThen, htwo, hone, runFor, force, evalCall_for hlower,
      evalCall_for hupper, endFor]
    exact ⟨_, rfl⟩
  obtain ⟨-, t, x, before, shown, hkept⟩ := counter_kept hlower hrun
  have hcount : eval (.empty : Registry Unit) 4 (.num 2.0) (.start .empty ()) =
      some (.ok 2.0, .start .empty ()) := rfl
  cases hcount.symm.trans hkept.count
  have hshown : shown 1 = 1.0 := by
    have hlt : 1 < iterationCount 2.0 := by rw [htwo]; decide
    have hdouble : Converts 1 1.0 := by
      have hofNat : ofNat 1 = 1.0 := by decide +kernel
      rw [← hofNat]
      exact converts_ofNat (by decide)
    exact (hkept.converts 1 hlt).1.unique hdouble
  refine ⟨u, hrun, ?_⟩
  rw [← hshown]
  refine hkept.last ?_ 1 htwo
  simp [Expr.Spares, Expr.nodes, Expr.nodesOf]

end Evaluation
end FormulaLang
