/-
  Runs of a partial step function.

  A run takes the events of a list one after the other and stops when a step
  does.  A relation between the history of a run and its state that every step
  extends holds along the whole run (`exists_run`); a step may need a condition
  on its event and on the history before it.  A relation that the steps that do not
  stop extend holds at the end of the runs that do not (`rel_of_run`), and so does an
  invariant of these steps (`inv_of_run`).  If the steps that break a law, or that stop,
  can be told from the others, so can the runs (`law_iff`, `safe_iff`).  A run of a
  specification is followed by the runs of a simulating system (`exists_run_of_spec`), and
  where what is seen of a state determines the next step it determines the run (`map_run`).
-/
import Mathlib

namespace Run

variable {S E : Type*} {step : S → E → Option S}

/-- **Induction over a run.** -/
theorem exists_run {R : List E → S → Prop} {C : List E → E → Prop}
    (hstep : ∀ h s e, R h s → C h e → ∃ s', step s e = some s' ∧ R (h ++ [e]) s') :
    ∀ (es : List E) {h : List E} {s : S}, R h s → (∀ pre e rest, es = pre ++ e :: rest → C (h ++ pre) e) →
      ∃ s', es.foldlM step s = some s' ∧ R (h ++ es) s'
  | [], h, s, hs, _ => ⟨s, rfl, by simpa using hs⟩
  | e :: es, h, s, hs, hC => by
    obtain ⟨s₁, h₁, hs₁⟩ := hstep h s e hs (by simpa using hC [] e es rfl)
    obtain ⟨s', h', hs'⟩ := exists_run hstep es hs₁ fun pre e' rest hes => by
      simpa using hC (e :: pre) e' rest (by rw [hes]; rfl)
    refine ⟨s', ?_, by simpa using hs'⟩
    rw [List.foldlM_cons, h₁]
    exact h'

/-- A run whose steps need a condition on their events only. -/
theorem exists_run_of_forall {R : List E → S → Prop} {C : E → Prop}
    (hstep : ∀ h s e, R h s → C e → ∃ s', step s e = some s' ∧ R (h ++ [e]) s')
    {es h : List E} {s : S} (hs : R h s) (hC : ∀ e ∈ es, C e) :
    ∃ s', es.foldlM step s = some s' ∧ R (h ++ es) s' :=
  exists_run (C := fun _ e => C e) hstep es hs fun pre e rest hes => hC e (by simp [hes])

/-- **A relation that the steps extend** holds at the end of every run that does not
    stop. -/
theorem rel_of_run {R : List E → S → Prop}
    (hstep : ∀ h s e s', R h s → step s e = some s' → R (h ++ [e]) s') :
    ∀ (es : List E) {h : List E} {s s' : S}, R h s → es.foldlM step s = some s' → R (h ++ es) s'
  | [], h, s, s', hs, hrun => by
    cases hrun
    simpa using hs
  | e :: es, h, s, s', hs, hrun => by
    obtain ⟨s₁, h₁, hrest⟩ := Option.bind_eq_some_iff.1 hrun
    simpa using rel_of_run hstep es (hstep h s e s₁ hs h₁) hrest

/-- **An invariant of the steps** holds at the end of every run that does not stop. -/
theorem inv_of_run {I : S → Prop} {C : E → Prop}
    (hstep : ∀ s e s', I s → C e → step s e = some s' → I s') {es : List E} {s s' : S} (hs : I s)
    (hC : ∀ e ∈ es, C e) (hrun : es.foldlM step s = some s') : I s' := by
  refine rel_of_run (R := fun h s => (∀ e ∈ h, C e) → I s) (fun h s e s' hI he hall => ?_) es
    (h := []) (fun _ => hs) hrun hC
  exact hstep s e s' (hI fun e' h' => hall e' (List.mem_append_left _ h'))
    (hall e (List.mem_append_right _ (List.mem_singleton_self e))) he

/-- **Forward simulation**: if every step of `spec` from related states is followed by
    `step`, so is every run of `spec`. -/
theorem exists_run_of_spec {T : Type*} {spec : T → E → Option T} {R : S → T → Prop} {C : E → Prop}
    (hstep : ∀ s t e t', R s t → C e → spec t e = some t' → ∃ s', step s e = some s' ∧ R s' t') :
    ∀ (es : List E) {s : S} {t t' : T}, R s t → (∀ e ∈ es, C e) → es.foldlM spec t = some t' →
      ∃ s', es.foldlM step s = some s' ∧ R s' t'
  | [], s, t, t', hs, _, hrun => by
    cases hrun
    exact ⟨s, rfl, hs⟩
  | e :: es, s, t, t', hs, hC, hrun => by
    obtain ⟨t₁, ht, hrest⟩ := Option.bind_eq_some_iff.1 hrun
    obtain ⟨s₁, h₁, hs₁⟩ := hstep s t e t₁ hs (hC e (List.mem_cons_self ..)) ht
    obtain ⟨s', h', hs'⟩ := exists_run_of_spec hstep es hs₁
      (fun e' he' => hC e' (List.mem_cons_of_mem _ he')) hrest
    refine ⟨s', ?_, hs'⟩
    rw [List.foldlM_cons, h₁]
    exact h'

/-- **What is seen of the states determines the run**, if it determines every step. -/
theorem map_run {T : Type*} {spec : T → E → Option T} {f : S → T} {I : S → Prop}
    (hstep : ∀ s e, I s → (step s e).map f = spec (f s) e)
    (hinv : ∀ s e s', I s → step s e = some s' → I s') :
    ∀ (es : List E) {s : S}, I s → (es.foldlM step s).map f = es.foldlM spec (f s)
  | [], _, _ => rfl
  | e :: es, s, hs => by
    rw [List.foldlM_cons, List.foldlM_cons, ← hstep s e hs]
    cases h : step s e with
    | none => rfl
    | some s' => exact map_run hstep hinv es (hinv s e s' hs h)

/-- A run that does not stop passes through a state after each of its prefixes. -/
theorem exists_run_prefix {pre es : List E} (hpre : pre <+: es) {s s' : S}
    (hrun : es.foldlM step s = some s') : ∃ t, pre.foldlM step s = some t := by
  obtain ⟨rest, rfl⟩ := hpre
  rw [List.foldlM_append] at hrun
  obtain ⟨t, ht, -⟩ := Option.bind_eq_some_iff.1 hrun
  exact ⟨t, ht⟩

/-- **Exactly the good runs keep a law**: if a good step keeps an invariant that includes
    the law, and a bad step breaks the law, then the law holds in all states of a run
    exactly if all its steps are good. -/
theorem law_iff {I L : S → Prop} {G : S → E → Prop} (hlaw : ∀ s, I s → L s)
    (hgood : ∀ s e s', I s → G s e → step s e = some s' → I s')
    (hbad : ∀ s e s', I s → ¬ G s e → step s e = some s' → ¬ L s') :
    ∀ {es : List E} {s s' : S}, I s → es.foldlM step s = some s' →
      ((∀ pre, pre <+: es → ∀ t, pre.foldlM step s = some t → L t) ↔
        ∀ pre e, pre ++ [e] <+: es → ∀ t, pre.foldlM step s = some t → G t e)
  | [], s, s', hs, _ => by
    constructor
    · intro _ pre e hpre
      simp at hpre
    · intro _ pre hpre t ht
      rw [List.prefix_nil] at hpre
      subst hpre
      cases ht
      exact hlaw s hs
  | e :: es, s, s', hs, hrun => by
    obtain ⟨s₁, h₁, hrest⟩ := Option.bind_eq_some_iff.1 hrun
    have hcons : ∀ {pre : List E} {t : S}, (e :: pre).foldlM step s = some t ↔
        pre.foldlM step s₁ = some t := by
      intro pre t
      rw [List.foldlM_cons, h₁]
      rfl
    by_cases hg : G s e
    · have ih := law_iff hlaw hgood hbad (hgood s e s₁ hs hg h₁) hrest
      constructor
      · intro hL pre e' hpre t ht
        cases pre with
        | nil =>
          cases ht
          obtain ⟨rfl, -⟩ := List.cons_prefix_cons.1 hpre
          exact hg
        | cons e'' pre =>
          obtain ⟨rfl, htail⟩ := List.cons_prefix_cons.1 hpre
          exact ih.1 (fun pre' hpre' t' ht' => hL (e'' :: pre')
            (List.cons_prefix_cons.2 ⟨rfl, hpre'⟩) t' (hcons.2 ht')) pre e' htail t (hcons.1 ht)
      · intro hG pre hpre t ht
        cases pre with
        | nil =>
          cases ht
          exact hlaw s hs
        | cons e'' pre =>
          obtain ⟨rfl, htail⟩ := List.cons_prefix_cons.1 hpre
          exact ih.2 (fun pre' e' hpre' t' ht' => hG (e'' :: pre') e'
            (List.cons_prefix_cons.2 ⟨rfl, hpre'⟩) t' (hcons.2 ht')) pre htail t (hcons.1 ht)
    · have hfirst : [e] <+: e :: es := ⟨es, rfl⟩
      refine iff_of_false (fun hL => ?_) fun hG => hg (hG [] e hfirst s rfl)
      exact hbad s e s₁ hs hg h₁ (hL [e] hfirst s₁ (hcons.2 rfl))

/-- **Exactly the good runs are safe**: if the good steps extend an invariant and the
    others stop or break a consequence `L` of it, then every prefix of a run reaches a
    state, in which `L` holds, exactly if all its steps are good. -/
theorem safe_iff {I L : S → Prop} {G : S → E → Prop} (hlaw : ∀ s, I s → L s)
    (hgood : ∀ s e, I s → G s e → ∃ s', step s e = some s' ∧ I s')
    (hbad : ∀ s e s', I s → ¬ G s e → step s e = some s' → ¬ L s') {es : List E} {s : S} (hs : I s) :
    (∀ pre, pre <+: es → ∃ t, pre.foldlM step s = some t ∧ L t) ↔
      ∀ pre e, pre ++ [e] <+: es → ∀ t, pre.foldlM step s = some t → G t e := by
  have happend : ∀ {pre : List E} {e : E} {t : S}, pre.foldlM step s = some t →
      (pre ++ [e]).foldlM step s = step t e := by
    intro pre e t h
    rw [List.foldlM_append, h]
    change (step t e >>= pure) = step t e
    exact bind_pure _
  -- good steps reach a state with the invariant
  have hreach : ∀ {pre}, (∀ pre' e, pre' ++ [e] <+: pre → ∀ t, pre'.foldlM step s = some t → G t e) →
      ∃ t, pre.foldlM step s = some t ∧ I t := by
    intro pre
    induction pre using List.reverseRecOn with
    | nil => exact fun _ => ⟨s, rfl, hs⟩
    | append_singleton pre e ih =>
      intro hG
      obtain ⟨t, ht, hI⟩ := ih fun pre' e' hpre' =>
        hG pre' e' (hpre'.trans (List.prefix_append pre [e]))
      obtain ⟨t', ht', hI'⟩ := hgood t e hI (hG pre e List.prefix_rfl t ht)
      exact ⟨t', (happend ht).trans ht', hI'⟩
  constructor
  · intro hL pre
    induction hn : pre.length using Nat.strong_induction_on generalizing pre with
    | _ n ih =>
      intro e hpre t ht
      by_contra hg
      obtain ⟨u, hu, hI⟩ := hreach fun pre' e' hpre' => by
        refine ih pre'.length ?_ pre' rfl e' (hpre'.trans ((List.prefix_append pre [e]).trans hpre))
        have := hpre'.length_le
        rw [List.length_append, List.length_singleton] at this
        omega
      obtain rfl := Option.some.inj (hu.symm.trans ht)
      obtain ⟨t', ht', hL'⟩ := hL (pre ++ [e]) hpre
      rw [happend hu] at ht'
      exact hbad u e t' hI hg ht' hL'
  · intro hG pre hpre
    obtain ⟨t, ht, hI⟩ := hreach fun pre' e' hpre' => hG pre' e' (hpre'.trans hpre)
    exact ⟨t, ht, hlaw t hI⟩

end Run
