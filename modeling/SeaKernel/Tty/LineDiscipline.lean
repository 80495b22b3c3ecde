import SeaKernel.Tty.Pty

/-!
# The line discipline

`process_input` against a line editor that knows control characters at any length of the line. The
code tests for room in the line before it looks at the character, so that a full line can neither be
edited nor be ended: it stays full forever. It also compares a signed character to an unsigned one,
and does not recognize control characters from 128 on.

## Main results

* `follows_iff`: the inputs on which the code follows the editor
-/

namespace SeaKernel.Tty

open List Option

/-- The character is one of the four control characters. -/
def Termios.Control (term : Termios) (c : UInt8) : Prop :=
  c = term.vintr ∨ c = term.verase ∨ c = term.vsusp ∨ c = term.veof

/-- One character of the reference editor. Other characters than a newline are dropped once the line
has as many as the buffer of the code can hold before one. -/
def edit (term : Termios) (line : List UInt8) (c : UInt8) : List UInt8 × List Effect :=
  if c = term.vintr then (line, [.raise .sigint])
  else if c = term.verase then (line.dropLast, [])
  else if c = term.vsusp then (line, [.raise .sigtstp])
  else if c = term.veof then ([], if line = [] then [.eof] else [.deliver line])
  else if c = 10 then ([], [.deliver (line ++ [c])])
  else if line.length < cbufSize - 1 then (line ++ [if c = 27 then 94 else c], [])
  else (line, [])

/-- The effect is not an echo to the master. -/
def Effect.Seen : Effect → Bool
  | .echo _ => false
  | _ => true

/-- The line and the effects after an input. -/
def after (step : List UInt8 → UInt8 → List UInt8 × List Effect) (input : List UInt8) :
    List UInt8 × List Effect :=
  input.foldl (fun s c => ((step s.1 c).1, s.2 ++ (step s.1 c).2)) ([], [])

/-- `process_input`, without the echo. -/
def process (term : Termios) (line : List UInt8) (c : UInt8) : List UInt8 × List Effect :=
  ((processInput term line c).1, (processInput term line c).2.filter Effect.Seen)

/-- After every prefix of the input, the code has the line of the editor, and has raised the
signals, delivered the lines and signalled the ends of file that the editor has. -/
def Follows (term : Termios) (input : List UInt8) : Prop :=
  ∀ pre, pre <+: input → after (process term) pre = after (edit term) pre

/-- The character is not a control character that the code does not recognize, and if the line is
full, it is neither a control character nor a newline. -/
def Safe (term : Termios) (line : List UInt8) (c : UInt8) : Prop :=
  (128 ≤ c → ¬ term.Control c) ∧ (cbufSize - 1 ≤ line.length → ¬ term.Control c ∧ c ≠ 10)

section Step

variable {term : Termios} {line : List UInt8} {c : UInt8}

theorem filter_echoed (chars : List UInt8) : (echoed term chars).filter Effect.Seen = [] := by
  rw [echoed]
  split <;> rfl

theorem filter_raise (signal : Signal) (chars : List UInt8) :
    (.raise signal :: echoed term chars).filter Effect.Seen = [.raise signal] := by
  rw [filter_cons_of_pos rfl, filter_echoed]

theorem process_full (h : cbufSize - 1 ≤ line.length) : process term line c = (line, []) := by
  rw [process, processInput, if_neg (by omega)]
  rfl

theorem process_plain (hroom : line.length < cbufSize - 1) (h : c < 128 → ¬ term.Control c) :
    process term line c = if c = 10 then ([], [.deliver (line ++ [c])])
      else (line ++ [if c = 27 then 94 else c], []) := by
  have hcc : ∀ cc, (cc = term.vintr ∨ cc = term.verase ∨ cc = term.vsusp ∨ cc = term.veof) →
      isCc c cc = false := by
    intro cc hcc
    refine decide_eq_false fun ⟨hlt, heq⟩ => h hlt ?_
    rwa [← heq] at hcc
  rw [process, processInput, if_pos hroom, hcc _ (.inl rfl), hcc _ (.inr (.inl rfl)),
    hcc _ (.inr (.inr (.inl rfl))), hcc _ (.inr (.inr (.inr rfl)))]
  by_cases hnl : c = 10
  · subst hnl
    simp [filter_echoed, Effect.Seen]
  · have hne : ¬ (if c = 27 then 94 else c) = 10 := by
      split
      · decide
      · exact hnl
    simp [filter_echoed, hne, hnl]

/-- **One character**: the code does what the editor does exactly if the character is safe. -/
theorem process_eq_edit_iff : process term line c = edit term line c ↔ Safe term line c := by
  have hbound : cbufSize - 1 = 255 := rfl
  by_cases hfull : cbufSize - 1 ≤ line.length
  · -- Every special character does something to a full line in the editor.
    have hpos : line ≠ [] := by
      rintro rfl
      exact absurd hfull (by decide)
    have hdrop : line ≠ line.dropLast := by
      intro h
      have := congrArg length h
      rw [length_dropLast] at this
      omega
    rw [process_full hfull, Safe, imp_iff_right hfull, edit, if_neg (Nat.not_lt.mpr hfull)]
    simp only [Termios.Control]
    split_ifs <;> simp_all
  · by_cases hhigh : 128 ≤ c ∧ term.Control c
    · -- The code stores the character, and the editor does not.
      refine iff_of_false ?_ fun h => h.1 hhigh.1 hhigh.2
      have hne : c ≠ 10 ∧ c ≠ 27 := by
        constructor <;>
        · rintro rfl
          exact absurd hhigh.1 (by decide)
      rw [process_plain (by omega) fun hlt => absurd hhigh.1 (UInt8.not_le.mpr hlt), if_neg hne.1,
        if_neg hne.2, edit]
      intro heq
      have hlen := congrArg (fun s => s.1.length) heq
      have hcontrol := hhigh.2
      simp only [Termios.Control] at hcontrol
      split_ifs at hlen <;> simp_all
      omega
    · refine iff_of_true ?_ ⟨fun hle hc => hhigh ⟨hle, hc⟩, fun h => absurd h hfull⟩
      by_cases hcontrol : term.Control c
      · -- The code recognizes the character.
        have hlt : c < 128 := UInt8.not_le.mp fun hle => hhigh ⟨hle, hcontrol⟩
        have hcc : ∀ cc, isCc c cc = decide (c = cc) := fun cc => by simp [isCc, hlt]
        rw [process, processInput, if_pos (by omega), edit]
        simp only [hcc, decide_eq_true_eq]
        simp only [Termios.Control] at hcontrol
        split_ifs <;> simp_all [filter_echoed, filter_raise, Effect.Seen]
      · rw [process_plain (by omega) fun _ => hcontrol, edit]
        simp only [Termios.Control, not_or] at hcontrol
        rw [if_neg hcontrol.1, if_neg hcontrol.2.1, if_neg hcontrol.2.2.1, if_neg hcontrol.2.2.2,
          if_pos (by omega : line.length < cbufSize - 1)]

end Step

theorem after_append_singleton (step : List UInt8 → UInt8 → List UInt8 × List Effect)
    (input : List UInt8) (c : UInt8) :
    after step (input ++ [c]) = ((step (after step input).1 c).1,
      (after step input).2 ++ (step (after step input).1 c).2) := by
  rw [after, foldl_append]
  rfl

/-- **The code follows the editor exactly on inputs whose characters are safe** for the line that
the editor has when they come. -/
theorem follows_iff (term : Termios) (input : List UInt8) :
    Follows term input ↔ ∀ pre c, pre ++ [c] <+: input → Safe term (after (edit term) pre).1 c := by
  constructor
  · intro h pre c hpre
    have hbefore := h pre ((prefix_append pre [c]).trans hpre)
    have hafter := h _ hpre
    rw [after_append_singleton, after_append_singleton, hbefore] at hafter
    obtain ⟨hline, heffects⟩ := Prod.mk.inj hafter
    exact process_eq_edit_iff.mp (Prod.ext hline (append_cancel_left heffects))
  · intro h pre
    -- The induction is on the prefix: the line before the last character is the editor's.
    induction pre using reverseRecOn with
    | nil => exact fun _ => rfl
    | append_singleton pre c ih =>
      intro hpre
      have hstep := process_eq_edit_iff.mpr (h pre c hpre)
      rw [after_append_singleton, after_append_singleton,
        ih ((prefix_append pre [c]).trans hpre), hstep]

/-- The usual control characters. -/
def usual : Termios := ⟨true, false, true, 3, 127, 26, 4⟩

theorem full_line_not_delivered : ¬ Follows usual (List.replicate 255 97 ++ [10]) := by
  intro h
  have hsafe := (follows_iff usual _).mp h (replicate 255 97) 10 (prefix_refl _)
  exact (hsafe.2 (by decide +kernel)).2 rfl

end SeaKernel.Tty
