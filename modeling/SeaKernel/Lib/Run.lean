import Mathlib.Tactic

/-!
# Runs of a step relation

A run from a state is the list of its events, each with the state it leads to. `Along R s run`
says that every step of the run, with the state before it, its event and the state after it,
satisfies `R`; the run is one of the system when `R` is the system's step relation, and a
condition on the steps of a run is `Along` at that condition.

## Main definitions

* `Along R s run`: every step of the run satisfies `R`
* `After P s run`: every state of the run satisfies `P`
* `states s run`: the states of the run
* `trace exec s events`: the run of a list of events
* `final s run`: the last state of the run

## Main results

* `Along.after`: the invariant rule, for runs whose steps all meet a condition
* `after_iff_along`: where the condition is also necessary, it characterizes the runs
* `Along.along_or_final`: a step that does not meet a condition leaves a trace at the end
* `foldlM_inv`: the invariant rule for loops
* `constant_iff_along`: a partial observation is constant if and only if no step changes it
-/

namespace SeaKernel

open List Option

variable {S E : Type*}

/-- Every step of the run satisfies `R`. -/
def Along (R : S → E → S → Prop) : S → List (E × S) → Prop
  | _, [] => True
  | s, (e, t) :: run => R s e t ∧ Along R t run

/-- Every state of the run, the first one included, satisfies `P`. -/
def After (P : S → Prop) (s : S) (run : List (E × S)) : Prop :=
  P s ∧ Along (fun _ _ t => P t) s run

variable {R R' C : S → E → S → Prop} {I P : S → Prop} {s : S} {run : List (E × S)}

@[simp] theorem along_nil : Along R s [] := trivial

variable {e : E} {t : S}

@[simp] theorem along_cons : Along R s ((e, t) :: run) ↔ R s e t ∧ Along R t run := Iff.rfl

instance decidableAlong (R : S → E → S → Prop) [∀ s e t, Decidable (R s e t)] :
    ∀ s run, Decidable (Along R s run)
  | _, [] => isTrue trivial
  | s, (e, t) :: run =>
    have := decidableAlong R t run
    inferInstanceAs (Decidable (R s e t ∧ Along R t run))

@[simp] theorem after_nil : After P s ([] : List (E × S)) ↔ P s := by
  simp [After]

@[simp] theorem after_cons : After P s ((e, t) :: run) ↔ P s ∧ After P t run := Iff.rfl

theorem Along.mono (hR : ∀ s e t, R s e t → R' s e t) (h : Along R s run) : Along R' s run := by
  induction run generalizing s with
  | nil => trivial
  | cons x run ih => exact ⟨hR _ _ _ h.1, ih h.2⟩

theorem Along.of_forall (h : ∀ e ∈ run.map Prod.fst, ∀ s t, R s e t) : Along R s run := by
  induction run generalizing s with
  | nil => trivial
  | cons x run ih =>
    exact ⟨h x.1 (by simp) s x.2, ih fun e he => h e (mem_cons_of_mem _ he)⟩

theorem Along.and (h : Along R s run) (h' : Along R' s run) :
    Along (fun s e t => R s e t ∧ R' s e t) s run := by
  induction run generalizing s with
  | nil => trivial
  | cons x run ih => exact ⟨⟨h.1, h'.1⟩, ih h.2 h'.2⟩

theorem After.mono (hP : ∀ s, I s → P s) (h : After I s run) : After P s run :=
  ⟨hP _ h.1, h.2.mono fun _ _ _ => hP _⟩

section

variable (hstep : ∀ s e t, I s → R s e t → C s e t → I t)

include hstep

/-- **The invariant rule**: what the steps meeting `C` keep holds in every state of a run whose
steps all meet `C`. -/
theorem Along.after (hs : I s) (hrun : Along R s run) (hC : Along C s run) : After I s run := by
  induction run generalizing s with
  | nil => exact after_nil.mpr hs
  | cons x run ih =>
    obtain ⟨e, t⟩ := x
    have ht : I t := hstep s e t hs hrun.1 hC.1
    exact after_cons.mpr ⟨hs, ih ht hrun.2 hC.2⟩

omit hstep in
theorem Along.after_of_step (hstep : ∀ s e t, I s → R s e t → I t) (hs : I s)
    (hrun : Along R s run) : After I s run :=
  hrun.after (C := fun _ _ _ => True) (fun s e t hI hR _ => hstep s e t hI hR) hs
    (hrun.mono fun _ _ _ _ => trivial)

omit hstep in
theorem Along.of_inv {Q : S → E → S → Prop}
    (hstep : ∀ s e t, I s → R s e t → C s e t → I t ∧ Q s e t) (hs : I s) (hrun : Along R s run)
    (hC : Along C s run) : Along Q s run := by
  induction run generalizing s with
  | nil => trivial
  | cons x run ih =>
    obtain ⟨e, t⟩ := x
    obtain ⟨ht, hQ⟩ := hstep s e t hs hrun.1 hC.1
    exact ⟨hQ, ih ht hrun.2 hC.2⟩

/-- **The exact rule**: if the steps meeting `C` keep `I`, `I` gives `P`, and a step from a
state with `I` that ends in `P` meets `C`, then the runs that stay in `P` are those whose steps
all meet `C`. -/
theorem after_iff_along (hP : ∀ s, I s → P s) (hC : ∀ s e t, I s → R s e t → P t → C s e t)
    (hs : I s) (hrun : Along R s run) : After P s run ↔ Along C s run := by
  refine ⟨fun h => ?_, fun h => (hrun.after hstep hs h).mono hP⟩
  induction run generalizing s with
  | nil => trivial
  | cons x run ih =>
    obtain ⟨e, t⟩ := x
    have hCst : C s e t := hC s e t hs hrun.1 (after_cons.mp h).2.1
    have ht : I t := hstep s e t hs hrun.1 hCst
    exact ⟨hCst, ih ht hrun.2 (after_cons.mp h).2⟩

theorem along_iff_along {Q : S → E → S → Prop} (hQ : ∀ s e t, I s → R s e t → (Q s e t ↔ C s e t))
    (hs : I s) (hrun : Along R s run) : Along Q s run ↔ Along C s run := by
  induction run generalizing s with
  | nil => simp
  | cons x run ih =>
    obtain ⟨e, t⟩ := x
    rw [along_cons, along_cons, hQ s e t hs hrun.1]
    exact and_congr_right fun hC => ih (hstep s e t hs hrun.1 hC) hrun.2

end

/-- The run of a list of events, for a system whose steps are a partial function. -/
def trace (exec : S → E → Option S) (s : S) : List E → Option (List (E × S))
  | [] => some []
  | e :: events => (exec s e).bind fun t => (trace exec t events).map fun run => (e, t) :: run

theorem along_trace {exec : S → E → Option S} {events : List E}
    (h : trace exec s events = some run) :
    run.map Prod.fst = events ∧ Along (fun s e t => exec s e = some t) s run := by
  induction events generalizing s run with
  | nil =>
    obtain rfl := some.inj h
    exact ⟨rfl, trivial⟩
  | cons e events ih =>
    obtain ⟨t, hexec, h⟩ := bind_eq_some_iff.mp h
    obtain ⟨run', hrun, rfl⟩ := map_eq_some_iff.mp h
    obtain ⟨hevents, halong⟩ := ih hrun
    exact ⟨by rw [map_cons, hevents], hexec, halong⟩

/-- The last state of the run. -/
def final : S → List (E × S) → S
  | s, [] => s
  | _, (_, t) :: run => final t run

theorem along_append {run' : List (E × S)} :
    Along R s (run ++ run') ↔ Along R s run ∧ Along R (final s run) run' := by
  induction run generalizing s with
  | nil => simp [final]
  | cons x run ih =>
    obtain ⟨e, t⟩ := x
    rw [cons_append, along_cons, along_cons, ih, and_assoc]
    rfl

theorem final_append {run' : List (E × S)} : final s (run ++ run') = final (final s run) run' := by
  induction run generalizing s with
  | nil => rfl
  | cons x run ih => exact ih

/-- Some run leads from `s` to `t`. -/
def Reaches (R : S → E → S → Prop) (s t : S) : Prop := ∃ run, Along R s run ∧ final s run = t

theorem Reaches.refl (R : S → E → S → Prop) (s : S) : Reaches R s s := ⟨[], trivial, rfl⟩

theorem Reaches.of_step (h : R s e t) : Reaches R s t :=
  ⟨[(e, t)], ⟨h, trivial⟩, rfl⟩

theorem Reaches.trans {u : S} (h : Reaches R s t) (h' : Reaches R t u) : Reaches R s u := by
  obtain ⟨run, hrun, rfl⟩ := h
  obtain ⟨run', hrun', rfl⟩ := h'
  exact ⟨run ++ run', along_append.mpr ⟨hrun, hrun'⟩, final_append⟩

theorem After.final (h : After P s run) : P (final s run) := by
  induction run generalizing s with
  | nil => exact h.1
  | cons x run ih => exact ih (after_cons.mp h).2

theorem Along.after_of_before (h : Along (fun s _ _ => P s) s run)
    (hfinal : P (SeaKernel.final s run)) :
    After P s run := by
  induction run generalizing s with
  | nil => exact after_nil.mpr hfinal
  | cons x run ih => exact after_cons.mpr ⟨h.1, ih h.2 hfinal⟩

/-- If a step that does not meet `C` leads to `L`, and `L` stays, then all steps of the run meet `C`
or the run ends in `L`. -/
theorem Along.along_or_final {L : S → Prop} (hstep : ∀ s e t, I s → R s e t → I t)
    (hC : ∀ s e t, I s → R s e t → C s e t ∨ L t)
    (hL : ∀ s e t, I s → L s → R s e t → L t) (hs : I s) (hrun : Along R s run) :
    Along C s run ∨ L (final s run) := by
  induction run generalizing s with
  | nil => exact Or.inl trivial
  | cons x run ih =>
    obtain ⟨e, t⟩ := x
    have ht : I t := hstep s e t hs hrun.1
    rcases hC s e t hs hrun.1 with hCst | hLt
    · exact (ih ht hrun.2).imp_left fun h => ⟨hCst, h⟩
    · have hafter : After (fun t => I t ∧ L t) t run :=
        hrun.2.after_of_step (fun s e t h hR => ⟨hstep s e t h.1 hR, hL s e t h.1 h.2 hR⟩) ⟨ht, hLt⟩
      exact Or.inr hafter.final.2

/-- A list of events has a run whose steps meet a condition and that meets another one as a whole,
if both can be evaluated. -/
theorem exists_trace (exec : S → E → Option S) (ready : S → E → Prop)
    [∀ s e, Decidable (ready s e)] (goal : List (E × S) → Prop) [DecidablePred goal] (s : S)
    (events : List E)
    (h : (trace exec s events).any (fun run =>
      decide (Along (fun s e _ => ready s e) s run ∧ goal run)) = true) :
    ∃ run, run.map Prod.fst = events ∧
      Along (fun s e t => ready s e ∧ exec s e = some t) s run ∧ goal run := by
  cases hrun : trace exec s events with
  | none => simp [hrun] at h
  | some run =>
    obtain ⟨hevents, hexec⟩ := along_trace hrun
    rw [hrun] at h
    obtain ⟨hready, hgoal⟩ := of_decide_eq_true h
    exact ⟨run, hevents, hready.and hexec, hgoal⟩

theorem exists_run (exec : S → E → Option S) (ready : S → E → Prop) [∀ s e, Decidable (ready s e)]
    (goal : S → Prop) [DecidablePred goal] (s : S) (events : List E)
    (h : (trace exec s events).any (fun run =>
      decide (Along (fun s e _ => ready s e) s run ∧ goal (final s run))) = true) :
    ∃ run, run.map Prod.fst = events ∧
      Along (fun s e t => ready s e ∧ exec s e = some t) s run ∧ goal (final s run) :=
  exists_trace exec ready (fun run => goal (final s run)) s events h

variable {α : Type*}

theorem toOption_eq_some {ε : Type*} {x : Except ε α} {a : α} :
    x.toOption = some a ↔ x = .ok a := by
  cases x <;> simp [Except.toOption]

/-! ## Loops -/

variable {β : Type*}

theorem foldlM_cons_some {α β : Type*} {f : β → α → Option β} {a : α} {l : List α} {x y : β}
    (h : f x a = some y) : (a :: l).foldlM f x = l.foldlM f y := by
  rw [foldlM_cons, h]
  rfl

theorem foldlM_fixed {f : β → α → Option β} {l : List α} {x : β} (h : ∀ a ∈ l, f x a = some x) :
    l.foldlM f x = some x := by
  induction l with
  | nil => rfl
  | cons a l ih =>
    rw [foldlM_cons_some (h a (by simp))]
    exact ih fun b hb => h b (mem_cons_of_mem _ hb)

theorem foldlM_mono {f g : β → α → Option β} {l : List α} {x y : β}
    (h : ∀ a x y, f x a = some y → g x a = some y) (hloop : l.foldlM f x = some y) :
    l.foldlM g x = some y := by
  induction l generalizing x with
  | nil => exact hloop
  | cons a l ih =>
    rw [foldlM_cons] at hloop
    obtain ⟨z, hz, hrest⟩ := bind_eq_some_iff.mp hloop
    rw [foldlM_cons_some (h a x z hz)]
    exact ih hrest

theorem foldlM_inv {α β : Type*} {f : β → α → Option β} {I : β → Prop} {l : List α} {x y : β}
    (hstep : ∀ a ∈ l, ∀ x y, I x → f x a = some y → I y) (hx : I x)
    (hloop : l.foldlM f x = some y) : I y := by
  induction l generalizing x with
  | nil =>
    obtain rfl := some.inj hloop
    exact hx
  | cons a l ih =>
    rw [foldlM_cons] at hloop
    obtain ⟨z, hz, hloop⟩ := bind_eq_some_iff.mp hloop
    exact ih (fun b hb => hstep b (mem_cons_of_mem a hb)) (hstep a mem_cons_self x z hx hz) hloop

/-! ## Observations -/

/-- The states of the run, in order. -/
def states (s : S) (run : List (E × S)) : List S := s :: run.map Prod.snd

theorem isChain_states {Q : S → S → Prop} :
    (states s run).IsChain Q ↔ Along (fun s _ t => Q s t) s run := by
  induction run generalizing s with
  | nil => simp [states]
  | cons x run ih =>
    rw [states, map_cons, isChain_cons_cons, along_cons, ← ih]
    rfl

/-- **A partial observation is constant on every stretch of the run on which it stays defined if
and only if no step changes it.** -/
theorem constant_iff_along (f : S → Option β) :
    (∀ part, part <:+: states s run → (∀ σ ∈ part, (f σ).isSome) →
      ∀ σ ∈ part, ∀ τ ∈ part, f σ = f τ) ↔
    Along (fun s _ t => (f s).isSome → (f t).isSome → f s = f t) s run := by
  rw [← isChain_states]
  constructor
  · intro h
    refine isChain_iff_forall_rel_of_append_cons_cons.mpr fun {σ τ before after} heq hσ hτ => ?_
    refine h [σ, τ] ⟨before, after, by simp [heq]⟩ ?_ σ (by simp) τ (by simp)
    simp [hσ, hτ]
  · intro h part hpart hdef
    have hchain : part.IsChain fun σ τ => f σ = f τ :=
      ( List.IsChain.infix h hpart).imp_of_mem_imp fun σ τ hσ hτ heq => heq (hdef σ hσ) (hdef τ hτ)
    have : IsTrans S fun σ τ => f σ = f τ := ⟨fun _ _ _ => Eq.trans⟩
    have : Std.Symm fun σ τ => f σ = f τ := ⟨fun _ _ => Eq.symm⟩
    have hall := List.Pairwise.forall_of_forall (R := fun σ τ => f σ = f τ) (fun _ _ => rfl)
      (isChain_iff_pairwise.mp hchain)
    exact fun σ hσ τ hτ => hall hσ hτ

end SeaKernel
