import SeaKernel.Kobj.Lru

/-!
# The life of a cached object

An object of the cache is *fresh* while its initialiser runs, then *ready* or in *error*; a ready
object that nobody holds may be taken from the list and is then *destroying*, and *dead* once it has
left the table. The phase of an object and the number of references that threads have to it say
everything about it: its header, whether it is in the table and under which identifier, and which
list it is on. That is the invariant `Inv`; nobody but the proof keeps track of the phases.

A step moves one thread and touches one object. `Inv.move` says what has to be checked then.

## Main results

* `Inv.move`: a step of one thread, on one object
* `Inv.others_of_unmentioned`, `Inv.others_of_fresh`: what other threads have to say about it
-/

namespace SeaKernel.Lru

open Function

variable {T ι O : Type*} [DecidableEq O]

/-- The phases of an object; all but the first know its identifier. -/
inductive Phase (ι : Type*) where
  | absent
  | fresh (id : ι)
  | ready (id : ι)
  | destroying (id : ι)
  | dead (id : ι)
  | error (id : ι)

namespace Phase

/-- The header of an object to which threads have `n` references. The cache has two more, which
are given up one after the other. -/
def header : Phase ι → ℕ → Option (Header ι)
  | absent, _ => none
  | fresh _, n => some ⟨n + 2, true, false, false, false, none⟩
  | ready id, n => some ⟨n + 2, true, true, false, false, some id⟩
  | destroying id, n => some ⟨n + 1, true, true, false, true, some id⟩
  | dead id, n => some ⟨n, true, true, false, false, some id⟩
  | error id, n => some ⟨n, true, true, true, false, some id⟩

/-- The identifier under which the object is in the table. -/
def key : Phase ι → Option ι
  | fresh id => some id
  | ready id => some id
  | destroying id => some id
  | _ => none

/-- The object is on a list. -/
def Listed : Phase ι → Prop
  | fresh _ => True
  | ready _ => True
  | _ => False

/-- Whether threads can have references, or must have some. -/
def Counts : Phase ι → ℕ → Prop
  | absent, n => n = 0
  | destroying _, n => n = 0
  | ready _, _ => True
  | _, n => 0 < n

end Phase

/-- The references to the object that a thread has in a call. -/
def Pc.refs (o : O) : Pc ι O → ℕ
  | waiting _ o' _ _ => if o' = o then 1 else 0
  | dropping o' n _ => if o' = o then n else 0
  | init _ o' => if o' = o then 1 else 0
  | readied o' => if o' = o then 1 else 0
  | failed o' => if o' = o then 3 else 0
  | disposing o' _ => if o' = o then 1 else 0
  | _ => 0

/-- The references to the object that a thread has. -/
def contrib (o : O) (l : Local ι O) : ℕ := l.held o + l.pc.refs o

/-- The object that only this thread is busy with. -/
def Pc.owns : Pc ι O → Option O
  | init _ o => some o
  | releasing o _ => some o
  | _ => none

/-- The phase of the object is one that goes with the place of the thread. -/
def Pc.Fits (phase : O → Phase ι) : Pc ι O → Prop
  | waiting _ o ref unblocked => 3 ≤ ref ∧
    ∃ id, (unblocked = false ∧ phase o = .fresh id) ∨ phase o = .ready id ∨ phase o = .error id
  | dropping o n _ => 0 < n ∧ ∃ id, phase o = .error id
  | init id o => phase o = .fresh id
  | readied o => ∃ id, phase o = .ready id
  | failed o => ∃ id, phase o = .error id
  | releasing o _ => ∃ id, phase o = .destroying id
  | disposing o _ => ∃ id, phase o = .dead id
  | _ => True

/-- A thread is where it can be, and holds only ready objects. -/
structure Local.Fits (phase : O → Phase ι) (l : Local ι O) : Prop where
  pc : l.pc.Fits phase
  held : ∀ o, 0 < l.held o → ∃ id, phase o = .ready id

section Invariant

variable [Fintype T]

/-- The references that threads have to the object. -/
def State.refsTo (σ : State T ι O) (o : O) : ℕ := tally (contrib o) σ.loc

/-- The state is what the phases of the objects say. -/
structure Inv (σ : State T ι O) (phase : O → Phase ι) : Prop where
  obj_eq : ∀ o, σ.obj o = (phase o).header (σ.refsTo o)
  counts : ∀ o, (phase o).Counts (σ.refsTo o)
  hash_iff : ∀ id o, (id, o) ∈ σ.hash ↔ (phase o).key = some id
  keys : (σ.hash.map Prod.fst).Nodup
  active_iff : ∀ o, o ∈ σ.active ↔ (phase o).Listed ∧ 0 < σ.refsTo o
  active_nodup : σ.active.Nodup
  lru_iff : ∀ o, o ∈ σ.lru ↔ (phase o).Listed ∧ σ.refsTo o = 0
  lru_nodup : σ.lru.Nodup
  fits : ∀ t, (σ.loc t).Fits phase
  owner : ∀ t u o, (σ.loc t).pc.owns = some o → (σ.loc u).pc.owns = some o → t = u
  order : σ.lru.Pairwise fun a b => σ.lastPut b < σ.lastPut a
  past : ∀ o ∈ σ.lru, σ.lastPut o < σ.clock

end Invariant

/-! ## Lists -/

section Lists

variable {l l' : List O} {o : O} {c : Prop}

/-- The second list is the first one, with the object on it or not. -/
structure Placed (l l' : List O) (o : O) (c : Prop) : Prop where
  nodup : l'.Nodup
  self : o ∈ l' ↔ c
  rest : ∀ x, x ≠ o → (x ∈ l' ↔ x ∈ l)

omit [DecidableEq O] in
theorem Placed.same (hl : l.Nodup) (hc : o ∈ l ↔ c) : Placed l l o c :=
  ⟨hl, hc, fun _ _ => Iff.rfl⟩

omit [DecidableEq O] in
theorem Placed.cons (hl : l.Nodup) (ho : o ∉ l) (hc : c) : Placed l (o :: l) o c :=
  ⟨List.nodup_cons.mpr ⟨ho, hl⟩, by simp [hc], fun x hx => by simp [hx]⟩

theorem Placed.erase (hl : l.Nodup) (hc : ¬ c) : Placed l (l.erase o) o c :=
  ⟨hl.erase o, iff_of_false hl.not_mem_erase hc, fun _ hx => List.mem_erase_of_ne hx⟩

end Lists

/-- The list is in the order of the puts, the last one first, and all of them are in the past. -/
def InOrder (lru : List O) (lastPut : O → ℕ) (clock : ℕ) : Prop :=
  (lru.Pairwise fun a b => lastPut b < lastPut a) ∧ ∀ o ∈ lru, lastPut o < clock

/-- The second table is the first one, with the object under the identifier of the phase. -/
structure Keyed (hash hash' : List (ι × O)) (o : O) (p : Phase ι) : Prop where
  nodup : (hash'.map Prod.fst).Nodup
  self : ∀ id, (id, o) ∈ hash' ↔ p.key = some id
  rest : ∀ id x, x ≠ o → ((id, x) ∈ hash' ↔ (id, x) ∈ hash)

/-! ## Steps -/

section Steps

variable [Fintype T] {σ σ' : State T ι O} {phase : O → Phase ι} {t u : T} {o x : O} {id : ι}
  {p : Phase ι}

/-- The other threads are where they can be. -/
def Others (σ : State T ι O) (t : T) (phase : O → Phase ι) : Prop :=
  ∀ u, u ≠ t → (σ.loc u).Fits phase

section

variable (h : Inv σ phase)

include h

theorem Inv.fits_pc {pc : Pc ι O} (hpc : (σ.loc t).pc = pc) : pc.Fits phase :=
  hpc ▸ (h.fits t).pc

theorem Inv.obj_of (hphase : phase o = p) : σ.obj o = p.header (σ.refsTo o) :=
  hphase ▸ h.obj_eq o

theorem Inv.counts_of (hphase : phase o = p) : p.Counts (σ.refsTo o) :=
  hphase ▸ h.counts o

theorem Inv.inOrder : InOrder σ.lru σ.lastPut σ.clock := ⟨h.order, h.past⟩

omit h in
omit [DecidableEq O] in
theorem InOrder.sublist {l l' : List O} {lastPut : O → ℕ} {clock : ℕ} (h : InOrder l lastPut clock)
    (hsub : l'.Sublist l) : InOrder l' lastPut clock :=
  ⟨h.1.sublist hsub, fun x hx => h.2 x (hsub.subset hx)⟩

theorem Inv.others (t : T) (hphase : phase o = p) : Others σ t (update phase o p) := by
  rw [← hphase, update_eq_self]
  exact fun u _ => h.fits u

theorem Inv.keyed (hkey : (phase o).key = p.key) : Keyed σ.hash σ.hash o p := by
  refine ⟨h.keys, fun id => ?_, fun _ _ _ => Iff.rfl⟩
  rw [← hkey]
  exact h.hash_iff id o

theorem Inv.mem_active (hlisted : (phase o).Listed) (hpos : 0 < σ.refsTo o) :
    o ∈ σ.active ∧ o ∉ σ.lru :=
  ⟨(h.active_iff o).mpr ⟨hlisted, hpos⟩, fun hmem => hpos.ne' ((h.lru_iff o).mp hmem).2⟩

/-- An object to which threads have references stays on the active list while they have some. -/
theorem Inv.placed_active (hlisted : (phase o).Listed) (hpos : 0 < σ.refsTo o) (hp : p.Listed)
    {n : ℕ} (hn : 0 < n) :
    Placed σ.active σ.active o (p.Listed ∧ 0 < n) ∧ Placed σ.lru σ.lru o (p.Listed ∧ n = 0) := by
  obtain ⟨hmem, hnot⟩ := h.mem_active hlisted hpos
  exact ⟨.same h.active_nodup (iff_of_true hmem ⟨hp, hn⟩),
    .same h.lru_nodup (iff_of_false hnot fun hzero => hn.ne' hzero.2)⟩

theorem Inv.placed_unlisted (hlisted : ¬ (phase o).Listed) (hp : ¬ p.Listed) (n : ℕ) :
    Placed σ.active σ.active o (p.Listed ∧ 0 < n) ∧ Placed σ.lru σ.lru o (p.Listed ∧ n = 0) :=
  ⟨.same h.active_nodup (iff_of_false (fun hmem => hlisted ((h.active_iff o).mp hmem).1)
      fun hc => hp hc.1),
    .same h.lru_nodup (iff_of_false (fun hmem => hlisted ((h.lru_iff o).mp hmem).1)
      fun hc => hp hc.1)⟩

end

/-- The object that the place of a thread is about. -/
def Pc.about : Pc ι O → Option O
  | waiting _ o _ _ => some o
  | dropping o _ _ => some o
  | init _ o => some o
  | readied o => some o
  | failed o => some o
  | releasing o _ => some o
  | disposing o _ => some o
  | _ => none

omit [DecidableEq O] in
theorem Pc.Fits.congr {pc : Pc ι O} {phase' : O → Phase ι} (h : pc.Fits phase)
    (hsame : ∀ x, pc.about = some x → phase' x = phase x) : pc.Fits phase' := by
  cases pc with
  | idle => trivial
  | seek call => trivial
  | reclaim next => trivial
  | _ =>
    have heq := hsame _ rfl
    simpa only [Pc.Fits, heq] using h

/-- A thread that has no reference to an object, and is not busy with it, does not mind what
becomes of it. -/
theorem Local.Fits.update_of_unmentioned {l : Local ι O} (h : l.Fits phase)
    (hcontrib : contrib o l = 0) (howns : l.pc.owns ≠ some o) (p : Phase ι) :
    l.Fits (update phase o p) := by
  obtain ⟨pc, held⟩ := l
  have hsplit : held o = 0 ∧ pc.refs o = 0 := by
    simpa [contrib] using hcontrib
  have hpc := h.pc
  refine ⟨hpc.congr fun x hx => update_of_ne ?_ .., fun x hx => ?_⟩
  · -- A place that is about the object has a reference to it, or owns it.
    rintro rfl
    have hrefs := hsplit.2
    cases pc <;> simp_all [Pc.about, Pc.refs, Pc.owns, Pc.Fits]
  · have hne : x ≠ o := by
      rintro rfl
      exact hx.ne' hsplit.1
    rw [update_of_ne hne]
    exact h.held x hx

theorem Inv.others_of_fresh (h : Inv σ phase) (hfresh : phase o = .fresh id)
    (howns : ∀ u, u ≠ t → (σ.loc u).pc.owns ≠ some o) (hp : p = .ready id ∨ p = .error id) :
    Others σ t (update phase o p) := by
  intro u hu
  have hfits := h.fits u
  have hne := howns u hu
  generalize σ.loc u = l at *
  obtain ⟨pc, held⟩ := l
  have hpc := hfits.pc
  refine ⟨?_, fun x hx => ?_⟩
  · by_cases habout : pc.about = some o
    · -- A place that is about a fresh object is the one of a thread that waits for it.
      cases pc with
      | waiting call o' ref unblocked =>
        obtain rfl := Option.some.inj habout
        exact ⟨hpc.1, id, by rw [update_self]; exact .inr hp⟩
      | _ => simp_all [Pc.about, Pc.owns, Pc.Fits]
    · refine hpc.congr fun x hx => update_of_ne ?_ ..
      rintro rfl
      exact habout hx
  · obtain ⟨id', hready⟩ := hfits.held x hx
    have hxo : x ≠ o := by
      rintro rfl
      rw [hfresh] at hready
      cases hready
    exact ⟨id', by rw [update_of_ne hxo, hready]⟩

/-- Threads move, with the references they had. -/
theorem Inv.setLoc (h : Inv σ phase) {loc : T → Local ι O}
    (hrefs : ∀ x, tally (contrib x) loc = σ.refsTo x) (hfits : ∀ u, (loc u).Fits phase)
    (howns : ∀ u x, (loc u).pc.owns = some x → (σ.loc u).pc.owns = some x) :
    Inv { σ with loc := loc } phase := by
  have hrefsTo : State.refsTo { σ with loc := loc } = σ.refsTo := funext hrefs
  refine ⟨?_, ?_, h.hash_iff, h.keys, ?_, h.active_nodup, ?_, h.lru_nodup, hfits,
    fun u v x hu hv => h.owner u v x (howns u x hu) (howns v x hv), h.order, h.past⟩ <;>
    rw [hrefsTo]
  · exact h.obj_eq
  · exact h.counts
  · exact h.active_iff
  · exact h.lru_iff

variable [DecidableEq T]

theorem Inv.others_of_unmentioned (h : Inv σ phase) (hrefs : σ.refsTo o ≤ contrib o (σ.loc t))
    (howns : ∀ u, u ≠ t → (σ.loc u).pc.owns ≠ some o) (p : Phase ι) :
    Others σ t (update phase o p) := by
  intro u hu
  have hpair := add_le_tally (contrib o) σ.loc hu.symm
  have hzero : contrib o (σ.loc u) = 0 := by
    rw [State.refsTo] at hrefs
    omega
  exact (h.fits u).update_of_unmentioned hzero (howns u hu) p

/-- **A step of one thread, on one object.** The thread gets the local state `l`, and the object the
phase `p`, with `n` references of threads. -/
theorem Inv.move (h : Inv σ phase) (t : T) (l : Local ι O) (o : O) (p : Phase ι) (n : ℕ)
    (hloc : σ'.loc = update σ.loc t l)
    (hcontrib : ∀ x, x ≠ o → contrib x l = contrib x (σ.loc t))
    (hn : n + contrib o (σ.loc t) = σ.refsTo o + contrib o l) (hcounts : p.Counts n)
    (hobj : σ'.obj = update σ.obj o (p.header n))
    (hkeyed : Keyed σ.hash σ'.hash o p)
    (hlists : Placed σ.active σ'.active o (p.Listed ∧ 0 < n) ∧
      Placed σ.lru σ'.lru o (p.Listed ∧ n = 0))
    (hfits : l.Fits (update phase o p)) (hothers : Others σ t (update phase o p))
    (howner : ∀ x, l.pc.owns = some x → ∀ u, u ≠ t → (σ.loc u).pc.owns ≠ some x)
    (horder : InOrder σ'.lru σ'.lastPut σ'.clock) :
    Inv σ' (update phase o p) := by
  have hrefs : ∀ x, σ'.refsTo x + contrib x (σ.loc t) = σ.refsTo x + contrib x l := by
    intro x
    rw [State.refsTo, hloc]
    exact tally_update (contrib x) σ.loc t l
  have hrefs_self : σ'.refsTo o = n := by
    have := hrefs o
    omega
  have hrefs_ne : ∀ x, x ≠ o → σ'.refsTo x = σ.refsTo x := by
    intro x hx
    have := hrefs x
    rw [hcontrib x hx] at this
    omega
  have hpc : ∀ u, u ≠ t → σ'.loc u = σ.loc u := by
    intro u hu
    rw [hloc, update_of_ne hu]
  have hpc_self : σ'.loc t = l := by rw [hloc, update_self]
  obtain ⟨hactive, hlru⟩ := hlists
  refine ⟨fun x => ?_, fun x => ?_, fun id x => ?_, hkeyed.nodup, fun x => ?_, hactive.nodup,
    fun x => ?_, hlru.nodup, fun u => ?_, fun u v x hu hv => ?_, horder.1, horder.2⟩
  · rw [hobj]
    by_cases hx : x = o
    · subst hx
      rw [update_self, update_self, hrefs_self]
    · rw [update_of_ne hx, update_of_ne hx, hrefs_ne x hx]
      exact h.obj_eq x
  · by_cases hx : x = o
    · subst hx
      rw [update_self, hrefs_self]
      exact hcounts
    · rw [update_of_ne hx, hrefs_ne x hx]
      exact h.counts x
  · by_cases hx : x = o
    · subst hx
      rw [update_self]
      exact hkeyed.self id
    · rw [update_of_ne hx, hkeyed.rest id x hx]
      exact h.hash_iff id x
  · by_cases hx : x = o
    · subst hx
      rw [update_self, hrefs_self]
      exact hactive.self
    · rw [update_of_ne hx, hrefs_ne x hx, hactive.rest x hx]
      exact h.active_iff x
  · by_cases hx : x = o
    · subst hx
      rw [update_self, hrefs_self]
      exact hlru.self
    · rw [update_of_ne hx, hrefs_ne x hx, hlru.rest x hx]
      exact h.lru_iff x
  · by_cases hu : u = t
    · subst hu
      rw [hpc_self]
      exact hfits
    · rw [hpc u hu]
      exact hothers u hu
  · by_cases hut : u = t
    · subst hut
      by_contra hvt
      rw [hpc_self] at hu
      rw [hpc v (Ne.symm hvt)] at hv
      exact howner x hu v (Ne.symm hvt) hv
    · rw [hpc u hut] at hu
      by_cases hvt : v = t
      · subst hvt
        rw [hpc_self] at hv
        exact absurd hu (howner x hv u hut)
      · rw [hpc v hvt] at hv
        exact h.owner u v x hu hv

/-- A thread moves to another place, and holds what it held. -/
theorem Inv.movePc (h : Inv σ phase) (t : T) (pc : Pc ι O) (o : O) (p : Phase ι) (n : ℕ)
    (hloc : σ'.loc = update σ.loc t ⟨pc, (σ.loc t).held⟩)
    (hrefs : ∀ x, x ≠ o → pc.refs x = (σ.loc t).pc.refs x)
    (hn : n + (σ.loc t).pc.refs o = σ.refsTo o + pc.refs o) (hcounts : p.Counts n)
    (hobj : σ'.obj = update σ.obj o (p.header n)) (hkeyed : Keyed σ.hash σ'.hash o p)
    (hlists : Placed σ.active σ'.active o (p.Listed ∧ 0 < n) ∧
      Placed σ.lru σ'.lru o (p.Listed ∧ n = 0))
    (hfits : pc.Fits (update phase o p)) (hheld : (σ.loc t).held o = 0 ∨ phase o = p)
    (hothers : Others σ t (update phase o p))
    (howner : ∀ x, pc.owns = some x → ∀ u, u ≠ t → (σ.loc u).pc.owns ≠ some x)
    (horder : InOrder σ'.lru σ'.lastPut σ'.clock) :
    Inv σ' (update phase o p) := by
  refine h.move t ⟨pc, (σ.loc t).held⟩ o p n hloc (fun x hx => ?_) ?_ hcounts hobj hkeyed hlists
    ⟨hfits, fun x hx => ?_⟩ hothers howner horder
  · rw [contrib, contrib, hrefs x hx]
  · rw [contrib, contrib]
    dsimp only
    omega
  · rcases hheld with hzero | hphase
    · have hne : x ≠ o := by
        rintro rfl
        exact hx.ne' hzero
      rw [update_of_ne hne]
      exact (h.fits t).held x hx
    · rw [← hphase, update_eq_self]
      exact (h.fits t).held x hx

theorem Inv.goto (h : Inv σ phase) (t : T) (pc : Pc ι O)
    (hrefs : ∀ x, pc.refs x = (σ.loc t).pc.refs x) (howns : pc.owns = none)
    (hfits : pc.Fits phase) :
    Inv (σ.goto t pc) phase := by
  refine h.setLoc (fun x => ?_) (fun u => ?_) fun u x hu => ?_
  · have hupdate := tally_update (contrib x) σ.loc t ⟨pc, (σ.loc t).held⟩
    have hsame : contrib x ⟨pc, (σ.loc t).held⟩ = contrib x (σ.loc t) := by
      rw [contrib, contrib, hrefs]
    rw [hsame] at hupdate
    exact Nat.add_right_cancel hupdate
  · by_cases hu : u = t
    · subst hu
      rw [update_self]
      exact ⟨hfits, (h.fits u).held⟩
    · rw [update_of_ne hu]
      exact h.fits u
  · by_cases hut : u = t
    · subst hut
      rw [update_self, howns] at hu
      cases hu
    · rwa [update_of_ne hut] at hu

end Steps

end SeaKernel.Lru
