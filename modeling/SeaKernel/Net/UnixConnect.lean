import SeaKernel.Lib.Run

/-!
# Connecting a Unix socket

`_unix_connect` and `_unix_accept` (`kernel/net/unix.c`), for any number of sockets and calls. A
connect puts its socket on the list of pending connections of the master, with a reference, and
waits for a second or for an accept to pair the socket. When the wait is over, it looks at the flag
of the socket only: it does not take the socket off the list again.

The lists of all masters are one list of pairs here. A reference is one of a list, or one of an
accept that has taken the socket from its list; those of the connection and of the calls themselves
come and go with them.

## Main results

* `Inv.next`: sockets that are pending or taken belong to a connect that has not returned
* `clean_iff`: a connect that fails is never clean
-/

namespace SeaKernel.UnixSocket

open Function List Option

/-- A connect that waits: the socket, the master and the references the socket had before. -/
structure Call (S : Type*) where
  sock : S
  master : S
  start : ℤ
  deriving DecidableEq

/-- The pending sockets with their masters, the newest first; the sockets that an accept has taken;
the connects that wait; the flags `SF_CONNEC`; and the references of the sockets. -/
structure State (S : Type*) where
  pend : List (S × S)
  taken : List S
  calls : List (Call S)
  connected : S → Bool
  refs : S → ℤ

inductive Event (S : Type*) where
  /-- `_unix_connect` up to the wait, with the socket that is bound to the path, if any. -/
  | connect (sock : S) (master : Option S)
  /-- The end of `_unix_connect`: the wait is over, by a time-out or not. -/
  | finish (c : Call S)
  /-- `_unix_accept` takes the oldest of the sockets that are pending. -/
  | take (master : S)
  /-- `_unix_accept` connects the socket with a new one. -/
  | pair (client server : S)
  /-- `_unix_accept` does not get a new socket. -/
  | fail (client : S)

section

variable {S : Type*} [DecidableEq S]

/-- The state after a step. -/
def State.next (σ : State S) : Event S → State S
  | .connect _ none => σ
  | .connect s (some m) =>
    { σ with
      pend := (s, m) :: σ.pend
      calls := ⟨s, m, σ.refs s⟩ :: σ.calls
      refs := update σ.refs s (σ.refs s + 1) }
  | .finish c => { σ with calls := σ.calls.erase c }
  | .take m =>
    match (σ.pend.filter fun x => x.2 = m).getLast? with
    | some x => { σ with pend := σ.pend.erase x, taken := x.1 :: σ.taken }
    | none => σ
  | .pair client server =>
    { σ with
      taken := σ.taken.erase client
      connected := update (update σ.connected client true) server true
      refs := update σ.refs client (σ.refs client - 1) }
  | .fail client => { σ with taken := σ.taken.erase client }

/-- The step can be made; the new socket of an accept is not used by a connect yet. -/
def State.Ready (σ : State S) : Event S → Prop
  | .finish c => c ∈ σ.calls
  | .pair client server => client ∈ σ.taken ∧ server ∉ σ.calls.map Call.sock
  | .fail client => client ∈ σ.taken
  | _ => True

def State.Step (σ : State S) (e : Event S) (τ : State S) : Prop := σ.Ready e ∧ τ = σ.next e

/-- The sockets that are pending or taken. -/
def State.waiting (σ : State S) : List S := σ.pend.map Prod.fst ++ σ.taken

/-- The socket is on no list, unconnected and has the given references. -/
def State.Left (σ : State S) (s : S) (refs : ℤ) : Prop :=
  s ∉ σ.pend.map Prod.fst ∧ σ.connected s = false ∧ σ.refs s = refs

/-- What the failure of a connect has to leave, and what it makes sure of: only sockets that are on
no list are put on one, and only sockets whose connect still waits are paired. -/
def Clean (σ : State S) (e : Event S) (τ : State S) : Prop :=
  match e with
  | .connect s none => τ.Left s (σ.refs s)
  | .connect s (some _) => s ∉ σ.pend.map Prod.fst
  | .finish c => σ.connected c.sock = false → τ.Left c.sock c.start
  | .pair client _ => client ∈ σ.calls.map Call.sock
  | _ => True

/-- A connect starts on a socket that is not connected and on which no other connect waits. -/
def Alone (σ : State S) : Event S → Prop
  | .connect s _ => σ.connected s = false ∧ s ∉ σ.calls.map Call.sock
  | _ => True

/-- A wait ends when the socket has been paired. -/
def Answered (σ : State S) : Event S → Prop
  | .finish c => σ.connected c.sock = true
  | _ => True

/-- The sockets that are pending or taken are those of connects that wait, each once; and as long as
a socket has not been paired, the connect has a reference more than before. -/
structure Inv (σ : State S) : Prop where
  nodup : σ.waiting.Nodup
  unpaired : ∀ s ∈ σ.waiting, σ.connected s = false ∧ s ∈ σ.calls.map Call.sock
  calls : (σ.calls.map Call.sock).Nodup
  refs : ∀ c ∈ σ.calls, σ.connected c.sock = false → σ.refs c.sock = c.start + 1

variable {σ τ : State S} {e : Event S}

theorem Inv.take (h : Inv σ) (m : S) : Inv (σ.next (.take m)) := by
  unfold State.next
  dsimp only
  split
  · next x hx =>
    have hmem : x ∈ σ.pend := (mem_filter.mp (mem_of_getLast? hx)).1
    have hperm : (State.waiting { σ with pend := σ.pend.erase x, taken := x.1 :: σ.taken }).Perm
        σ.waiting := by
      refine perm_middle.trans ?_
      exact ((perm_cons_erase hmem).map Prod.fst).symm.append_right σ.taken
    exact ⟨hperm.nodup_iff.mpr h.nodup, fun s hs => h.unpaired s (hperm.mem_iff.mp hs), h.calls,
      h.refs⟩
  · exact h

theorem Inv.waiting_erase (h : Inv σ) {client : S} (hclient : client ∈ σ.taken) :
    σ.pend.map Prod.fst ++ σ.taken.erase client = σ.waiting.erase client :=
  (erase_append_right _ fun hmem => disjoint_of_nodup_append h.nodup hmem hclient).symm

theorem Inv.next (h : Inv σ) (hready : σ.Ready e) (halone : Alone σ e) (hanswered : Answered σ e) :
    Inv (σ.next e) := by
  cases e with
  | connect s master =>
    cases master with
    | none => exact h
    | some m =>
      obtain ⟨hconnected, hcalls⟩ := halone
      have hfree : s ∉ σ.waiting := fun hs => hcalls (h.unpaired s hs).2
      refine ⟨nodup_cons.mpr ⟨hfree, h.nodup⟩, ?_, nodup_cons.mpr ⟨hcalls, h.calls⟩, ?_⟩
      · intro x hx
        rcases mem_cons.mp hx with rfl | hx
        · exact ⟨hconnected, mem_cons_self⟩
        · exact (h.unpaired x hx).imp_right (mem_cons_of_mem _)
      · intro c hc hunpaired
        rcases mem_cons.mp hc with rfl | hc
        · exact update_self ..
        · have hne : c.sock ≠ s := fun heq => hcalls (heq ▸ mem_map_of_mem hc)
          exact (update_of_ne hne ..).trans (h.refs c hc hunpaired)
  | finish c =>
    refine ⟨h.nodup, fun s hs => ?_, h.calls.sublist (erase_sublist.map _), ?_⟩
    · -- the call that ends is not one of a socket that is still waiting
      obtain ⟨hunpaired, hmem⟩ := h.unpaired s hs
      obtain ⟨d, hd, rfl⟩ := mem_map.mp hmem
      have hne : d ≠ c := by
        rintro rfl
        exact Bool.false_ne_true (hunpaired.symm.trans hanswered)
      exact ⟨hunpaired, mem_map_of_mem ((mem_erase_of_ne hne).mpr hd)⟩
    · exact fun d hd => h.refs d (mem_of_mem_erase hd)
  | take m => exact h.take m
  | pair client server =>
    obtain ⟨hclient, hserver⟩ := hready
    have hwaiting : (σ.next (.pair client server)).waiting = σ.waiting.erase client :=
      h.waiting_erase hclient
    refine ⟨hwaiting ▸ h.nodup.erase _, fun s hs => ?_, h.calls, fun c hc hunpaired => ?_⟩
    · rw [hwaiting, h.nodup.mem_erase_iff] at hs
      obtain ⟨hunpaired, hmem⟩ := h.unpaired s hs.2
      have hne : s ≠ server := fun heq => hserver (heq ▸ hmem)
      refine ⟨?_, hmem⟩
      exact (update_of_ne hne ..).trans ((update_of_ne hs.1 ..).trans hunpaired)
    · have hserver' : c.sock ≠ server := fun heq => hserver (heq ▸ mem_map_of_mem hc)
      have hne : c.sock ≠ client := by
        rintro rfl
        simp [State.next, update_of_ne hserver'] at hunpaired
      simp only [State.next, update_of_ne hserver', update_of_ne hne] at hunpaired ⊢
      exact h.refs c hc hunpaired
  | fail client =>
    have hwaiting : (σ.next (.fail client)).waiting = σ.waiting.erase client :=
      h.waiting_erase hready
    refine ⟨hwaiting ▸ h.nodup.erase _, fun s hs => ?_, h.calls, h.refs⟩
    rw [hwaiting] at hs
    exact h.unpaired s (mem_of_mem_erase hs)

/-- **A step is clean** if it is not the failure of a connect that has waited. -/
theorem Inv.clean_iff_answered (h : Inv σ) (hready : σ.Ready e) (halone : Alone σ e) :
    Clean σ e (σ.next e) ↔ Answered σ e := by
  have hpend : ∀ s, s ∈ σ.pend.map Prod.fst → s ∈ σ.waiting := fun s => mem_append_left _
  cases e with
  | connect s master =>
    have hfree : s ∉ σ.pend.map Prod.fst := fun hs => halone.2 (h.unpaired s (hpend s hs)).2
    cases master with
    | none => exact iff_of_true ⟨hfree, halone.1, rfl⟩ trivial
    | some m => exact iff_of_true hfree trivial
  | finish c =>
    constructor
    · intro hclean
      -- the reference of the list is not returned
      by_contra hunpaired
      have hfalse := Bool.eq_false_of_not_eq_true hunpaired
      have hrefs : σ.refs c.sock = c.start := (hclean hfalse).2.2
      have := h.refs c hready hfalse
      omega
    · intro hanswered hfalse
      exact absurd (hfalse.symm.trans hanswered) Bool.false_ne_true
  | pair client server =>
    exact iff_of_true (h.unpaired client (mem_append_right _ hready.1)).2 trivial
  | take m | fail client => exact Iff.rfl

/-- No socket is used. -/
def State.fresh (refs : S → ℤ) : State S := ⟨[], [], [], fun _ => false, refs⟩

/-- **When the failure of a connect is clean**: in runs in which a connect starts only on a socket
that is not connected or connecting, only the failures before the socket is pending are clean. All
is well iff no wait ends before the socket has been paired. -/
theorem clean_iff {refs : S → ℤ} {run : List (Event S × State S)}
    (hrun : Along State.Step (.fresh refs) run)
    (halone : Along (fun σ e _ => Alone σ e) (.fresh refs) run) :
    Along Clean (.fresh refs) run ↔ Along (fun σ e _ => Answered σ e) (.fresh refs) run := by
  refine along_iff_along (I := Inv) ?_ ?_ ⟨.nil, nofun, .nil, nofun⟩ (hrun.and halone)
  · rintro σ e _ h ⟨⟨hready, rfl⟩, halone⟩ hanswered
    exact h.next hready halone hanswered
  · rintro σ e _ h ⟨⟨hready, rfl⟩, halone⟩
    exact h.clean_iff_answered hready halone

end

/-- The run of a list of events. -/
def runOf (σ : State ℕ) : List (Event ℕ) → List (Event ℕ × State ℕ)
  | [] => []
  | e :: events => (e, σ.next e) :: runOf (σ.next e) events

/-- The socket 1 connects to 0, and is paired with the new socket 2. -/
theorem paired_clean : Along Clean (.fresh 0) (runOf (.fresh 0)
    [.connect 1 (some 0), .take 0, .pair 1 2, .finish ⟨1, 0, 0⟩]) := by
  refine (clean_iff ?_ ?_).mpr ⟨trivial, trivial, trivial, rfl, trivial⟩
  · exact ⟨⟨trivial, rfl⟩, ⟨trivial, rfl⟩, ⟨⟨by decide, by decide⟩, rfl⟩, ⟨.head _, rfl⟩, trivial⟩
  · exact ⟨⟨rfl, nofun⟩, trivial, trivial, trivial, trivial⟩

/-- **A connect times out**, and is tried again: the socket is pending twice. -/
theorem retry_pending_twice :
    Along State.Step (.fresh 0) (runOf (.fresh 0)
      [.connect 1 (some 0), .finish ⟨1, 0, 0⟩, .connect 1 (some 0)]) ∧
    (final (.fresh 0) (runOf (.fresh 0)
      [.connect 1 (some 0), .finish ⟨1, 0, 0⟩, .connect 1 (some 0)])).pend = [(1, 0), (1, 0)] ∧
    ¬ Along Clean (.fresh 0) (runOf (.fresh 0)
      [.connect 1 (some 0), .finish ⟨1, 0, 0⟩, .connect 1 (some 0)]) :=
  ⟨⟨⟨trivial, rfl⟩, ⟨.head _, rfl⟩, ⟨trivial, rfl⟩, trivial⟩, rfl,
    fun ⟨_, _, hclean, _⟩ => hclean (.head _)⟩

end SeaKernel.UnixSocket
