import Mathlib.Logic.Relation

/-! Machines whose events may be refused, their runs, and invariants of runs. -/

namespace Transition

variable {σ ε : Type*}

/-- States reached by events each of which meets `ok` in the state it starts from. -/
abbrev Reach (step : σ → ε → Option σ) (ok : σ → ε → Prop) : σ → σ → Prop :=
  Relation.ReflTransGen fun s t => ∃ e, ok s e ∧ step s e = some t

/-- No condition on the events. -/
def Always (_ : σ) (_ : ε) : Prop := True

def exec (step : σ → ε → Option σ) : σ → List ε → Option σ
  | s, [] => some s
  | s, e :: es => (step s e).bind fun t => exec step t es

/-- The machine that refuses the events failing a decidable condition. -/
def guarded (ok : σ → ε → Bool) (step : σ → ε → Option σ) (s : σ) (e : ε) : Option σ :=
  if ok s e then step s e else none

/-- A run together with what is observed of its steps. -/
inductive Trace {ω : Type*} (step : σ → ε → Option σ) (ok : σ → ε → Prop) (obs : σ → ε → Option ω) :
    σ → List ω → σ → Prop
  | refl (s : σ) : Trace step ok obs s [] s
  | head {s t u : σ} {e : ε} {os : List ω} : ok s e → step s e = some t → Trace step ok obs t os u →
      Trace step ok obs s ((obs s e).toList ++ os) u

theorem Reach.invariant {step : σ → ε → Option σ} {ok : σ → ε → Prop} {I : σ → Prop} {s t : σ}
    (h : Reach step ok s t) (hs : I s)
    (hstep : ∀ u e v, I u → ok u e → step u e = some v → I v) : I t := by
  induction h with
  | refl => exact hs
  | tail _ hst ih =>
    obtain ⟨e, hok, he⟩ := hst
    exact hstep _ e _ ih hok he

theorem Reach.mono {step : σ → ε → Option σ} {ok ok' : σ → ε → Prop} {s t : σ}
    (h : Reach step ok s t) (hle : ∀ u e, ok u e → ok' u e) : Reach step ok' s t := by
  induction h with
  | refl => exact .refl
  | tail _ hst ih =>
    obtain ⟨e, hok, he⟩ := hst
    exact .tail ih ⟨e, hle _ e hok, he⟩

/-- A condition that holds of the steps taken, in the states reached by them. -/
theorem Reach.strengthen {step : σ → ε → Option σ} {ok ok' : σ → ε → Prop} {s t : σ}
    (h : Reach step ok s t) (hle : ∀ u e, Reach step ok s u → ok u e → ok' u e) :
    Reach step ok' s t := by
  induction h with
  | refl => exact .refl
  | tail hprev hst ih =>
    obtain ⟨e, hok, he⟩ := hst
    exact .tail ih ⟨e, hle _ e hprev hok, he⟩

theorem Reach.always {step : σ → ε → Option σ} {ok : σ → ε → Prop} {s t : σ}
    (h : Reach step ok s t) : Reach step Always s t :=
  h.mono fun _ _ _ => trivial

/-- A simulation of single steps is one of whole runs. -/
theorem Reach.simulate {τ δ : Type*} {step : σ → ε → Option σ} {ok : σ → ε → Prop}
    {step' : τ → δ → Option τ} {R : σ → τ → Prop} {s t : σ} {a : τ} (h : Reach step ok s t)
    (hs : R s a) (hstep : ∀ u e v b, R u b → ok u e → step u e = some v →
      ∃ c, Reach step' Always b c ∧ R v c) : ∃ b, Reach step' Always a b ∧ R t b := by
  induction h with
  | refl => exact ⟨a, .refl, hs⟩
  | tail _ hst ih =>
    obtain ⟨e, hok, he⟩ := hst
    obtain ⟨b, hb, hR⟩ := ih
    obtain ⟨c, hc, hR'⟩ := hstep _ e _ b hR hok he
    exact ⟨c, hb.trans hc, hR'⟩

theorem reach_of_guarded_exec {step : σ → ε → Option σ} {ok : σ → ε → Bool}
    {ok' : σ → ε → Prop} (hle : ∀ u e, ok u e = true → ok' u e) {es : List ε} {s t : σ}
    (h : exec (guarded ok step) s es = some t) : Reach step ok' s t := by
  induction es generalizing s with
  | nil =>
    obtain rfl : s = t := by simpa [exec] using h
    exact .refl
  | cons e es ih =>
    simp only [exec, guarded] at h
    by_cases hok : ok s e = true
    · rw [if_pos hok] at h
      obtain ⟨u, hu, ht⟩ := Option.bind_eq_some_iff.mp h
      exact .head ⟨e, hle s e hok, hu⟩ (ih ht)
    · simp [hok] at h

theorem reach_of_exec {step : σ → ε → Option σ} {es : List ε} {s t : σ}
    (h : exec step s es = some t) : Reach step Always s t := by
  induction es generalizing s with
  | nil =>
    obtain rfl : s = t := by simpa [exec] using h
    exact .refl
  | cons e es ih =>
    obtain ⟨u, hu, ht⟩ := Option.bind_eq_some_iff.mp h
    exact .head ⟨e, trivial, hu⟩ (ih ht)

/-- A concrete run, for statements that some reachable state has a decidable property. -/
theorem exists_reach_of_exec (step : σ → ε → Option σ) (s : σ) (es : List ε) (p : σ → Bool)
    (h : (exec step s es).any p = true) : ∃ t, Reach step Always s t ∧ p t = true := by
  cases ht : exec step s es with
  | none => simp [ht] at h
  | some t => exact ⟨t, reach_of_exec ht, by simpa [ht] using h⟩

/-- The same for runs that meet a condition. -/
theorem exists_reach_of_guarded (step : σ → ε → Option σ) (ok : σ → ε → Bool) (s : σ)
    (es : List ε) (p : σ → Bool) (h : (exec (guarded ok step) s es).any p = true) :
    ∃ t, Reach step (fun u e => ok u e = true) s t ∧ p t = true := by
  cases ht : exec (guarded ok step) s es with
  | none => simp [ht] at h
  | some t => exact ⟨t, reach_of_guarded_exec (fun _ _ h => h) ht, by simpa [ht] using h⟩

end Transition
