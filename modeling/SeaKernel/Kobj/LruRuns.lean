import SeaKernel.Kobj.LruPhases

/-!
# Runs of the LRU object cache

Every step of every thread keeps the invariant of `LruPhases`, and no step panics. Objects come to
the LRU list when the last reference to them is put, and go to its head; the tail, which
`kobj_lru_reclaim` takes, was put before all others on it.

## Main results

* `Inv.exec`: a step keeps the invariant and does not panic
* `lru_run`: every state of every run is sound, and the oldest object is evicted
* `held_ready`: no object is freed while a thread holds it
-/

namespace SeaKernel.Lru

open Function List Option Nat State Pc Phase Except

variable {T ι O : Type*} [DecidableEq O] {phase : O → Phase ι} {o x : O} {id : ι} {p : Phase ι}

/-! ## Places of threads -/

variable {pc : Pc ι O}

section Places

theorem contrib_wakeUp (o x : O) (l : Local ι O) : contrib x (State.wakeUp o l) = contrib x l := by
  obtain ⟨pc, held⟩ := l
  cases pc <;> rfl

theorem owns_wakeUp (o : O) (l : Local ι O) : (State.wakeUp o l).pc.owns = l.pc.owns := by
  obtain ⟨pc, held⟩ := l
  cases pc <;> rfl

theorem Local.Fits.wakeUp {l : Local ι O} (hfits : l.Fits phase)
    (hphase : ∀ id, phase o ≠ .fresh id) :
    (State.wakeUp o l).Fits phase := by
  obtain ⟨pc, held⟩ := l
  cases pc with
  | waiting call o' ref unblocked =>
    obtain ⟨⟨href, id, hcases⟩, hheld⟩ := hfits
    refine ⟨⟨href, id, ?_⟩, hheld⟩
    rcases hcases with ⟨hfalse, hfresh⟩ | hother
    · have hne : o' ≠ o := by
        rintro rfl
        exact hphase id hfresh
      exact .inl ⟨by simp [hfalse, hne], hfresh⟩
    · exact .inr hother
  | _ => exact hfits

variable (next : Option (Call ι))

theorem refs_resume (x : O) : (resume next : Pc ι O).refs x = 0 := by
  cases next <;> rfl

omit [DecidableEq O] in
theorem owns_resume : (resume next : Pc ι O).owns = none := by
  cases next <;> rfl

omit [DecidableEq O] in
theorem fits_resume : (resume next : Pc ι O).Fits phase := by
  cases next <;> trivial

theorem Pc.refs_of_seek {call : Call ι} (hpc : pc = .seek call) (x : O) : pc.refs x = 0 := by
  rw [hpc]
  rfl

end Places

variable [Fintype T] {σ σ' : State T ι O} {t u : T} {call : Call ι}

/-- The step does not panic and keeps the invariant. -/
abbrev Keeps (r : Except Panic (State T ι O)) : Prop := ∃ σ' phase, r = .ok σ' ∧ Inv σ' phase

/-! ## Facts about one object -/

section Facts

section

variable (h : Inv σ phase)

include h

theorem Inv.not_owns (hfresh : ∀ id, phase o ≠ .fresh id)
    (hdestroying : ∀ id, phase o ≠ .destroying id) (u : T) : (σ.loc u).pc.owns ≠ some o := by
  intro howns
  have hfits := (h.fits u).pc
  cases hpc : (σ.loc u).pc with
  | init id' o' =>
    rw [hpc] at howns hfits
    obtain rfl := some.inj howns
    exact hfresh id' hfits
  | releasing o' next =>
    rw [hpc] at howns hfits
    obtain rfl := some.inj howns
    obtain ⟨id', hphase⟩ := hfits
    exact hdestroying id' hphase
  | _ =>
    rw [hpc] at howns
    cases howns

theorem Inv.absent_of_none (hnone : σ.obj o = none) : phase o = .absent := by
  rw [h.obj_eq] at hnone
  cases hp : phase o with
  | absent => rfl
  | _ =>
    rw [hp] at hnone
    cases hnone

theorem Inv.lookup [DecidableEq ι] (hlookup : σ.hash.lookup id = some o) :
    phase o = .fresh id ∨ phase o = .ready id ∨ phase o = .destroying id := by
  have hkey := (h.hash_iff id o).mp ((lookup_eq_some h.keys).mp hlookup)
  cases hp : phase o <;> simp_all [key]

theorem Inv.hash_unique [DecidableEq ι] (hx : (id, x) ∈ σ.hash) (ho : (id, o) ∈ σ.hash) :
    x = o := by
  rw [← lookup_eq_some h.keys] at hx ho
  exact some.inj (hx.symm.trans ho)

/-- The object leaves the table. -/
theorem Inv.keyed_delete [DecidableEq ι] (hkey : (phase o).key = some id) (hp : p.key = none) :
    Keyed σ.hash (tableDelete σ.hash id) o p := by
  refine ⟨nodup_tableDelete h.keys, fun id' => (mem_tableDelete h.keys).trans ?_, fun id' x hx =>
    (mem_tableDelete h.keys).trans (and_iff_right_of_imp ?_)⟩
  · rw [h.hash_iff, hkey, hp]
    simp only [some.injEq, reduceCtorEq, iff_false, not_and]
    exact fun hne heq => hne heq.symm
  · rintro hold rfl
    exact hx (h.hash_unique hold ((h.hash_iff id' o).mpr hkey))

theorem Inv.held_eq_zero (hphase : ∀ id, phase o ≠ .ready id) (t : T) : (σ.loc t).held o = 0 := by
  by_contra hne
  obtain ⟨id, hready⟩ := (h.fits t).held o (pos_of_ne_zero hne)
  exact hphase id hready

theorem Inv.order_congr {lastPut : O → ℕ} (hsame : ∀ x ∈ σ.lru, lastPut x = σ.lastPut x) :
    σ.lru.Pairwise fun a b => lastPut b < lastPut a := by
  refine h.order.imp_of_mem fun {a b} ha hb hlt => ?_
  rw [hsame a ha, hsame b hb]
  exact hlt

theorem Inv.ready_of_mem_lru (hmem : o ∈ σ.lru) : (∃ id, phase o = .ready id) ∧ σ.refsTo o = 0 := by
  obtain ⟨hlisted, hzero⟩ := (h.lru_iff o).mp hmem
  have hcounts := h.counts o
  refine ⟨?_, hzero⟩
  cases hphase : phase o with
  | ready id => exact ⟨id, rfl⟩
  | fresh id =>
    rw [hphase, hzero] at hcounts
    cases hcounts
  | _ =>
    rw [hphase] at hlisted
    cases hlisted

theorem Inv.initialiser (hpc : (σ.loc t).pc = .init id o) :
    phase o = .fresh id ∧ 0 < σ.refsTo o ∧ (id, o) ∈ σ.hash ∧
      ∀ u, u ≠ t → (σ.loc u).pc.owns ≠ some o := by
  have hphase : phase o = .fresh id := h.fits_pc hpc
  refine ⟨hphase, h.counts_of hphase, ?_, fun u hu howns => hu ?_⟩
  · rw [h.hash_iff, hphase]
    rfl
  · exact h.owner u t o howns (by rw [hpc]; rfl)

theorem Inv.unblockAll (hphase : ∀ id, phase o ≠ .fresh id) : Inv (σ.unblockAll o) phase := by
  refine h.setLoc (fun x => ?_) (fun t => (h.fits t).wakeUp hphase)
    fun u x hu => (owns_wakeUp o _).symm.trans hu
  exact Finset.sum_congr rfl fun t _ => contrib_wakeUp o x (σ.loc t)

end

theorem Inv.initial (max : ℕ) : Inv (State.initial max : State T ι O) fun _ => .absent := by
  have hzero : ∀ o, (State.initial max : State T ι O).refsTo o = 0 :=
    fun o => tally_eq_zero fun _ => rfl
  refine ⟨fun _ => rfl, hzero, fun id o => ?_, nodup_nil, fun o => ?_, nodup_nil,
    fun o => ?_, nodup_nil, fun t => ⟨trivial, fun o ho => ?_⟩, fun t u o ht => ?_,
    List.Pairwise.nil, fun o ho => ?_⟩
  · exact iff_of_false not_mem_nil (by simp [key])
  · exact iff_of_false not_mem_nil (by simp [Phase.Listed])
  · exact iff_of_false not_mem_nil (by simp [Phase.Listed])
  · cases ho
  · cases ht
  · cases ho

end Facts

/-! ## Holders -/

section Holders

/-- The thread waits for the object, or makes it. -/
def Pc.awaits (o : O) : Pc ι O → ℕ
  | waiting _ o' _ _ => if o' = o then 1 else 0
  | init _ o' => if o' = o then 1 else 0
  | readied o' => if o' = o then 1 else 0
  | _ => 0

/-- The references that a thread holds or waits to be given. -/
def Local.holds (l : Local ι O) (o : O) : ℕ := l.held o + l.pc.awaits o

/-- The holders of the object; a thread counts once for every reference. -/
def State.holders (σ : State T ι O) (o : O) : ℕ := tally (·.holds o) σ.loc

/-- `kobj_lru_reclaim` has taken the object, and has not yet dropped its last reference. -/
def State.BeingDestroyed (σ : State T ι O) (o : O) : Prop :=
  (∃ h, σ.obj o = some h ∧ h.destroy = true) ∨ ∃ t next, (σ.loc t).pc = .disposing o next

/-- The object was marked as ready, and is not being destroyed. -/
def State.IsReady (σ : State T ι O) (o : O) : Prop :=
  (∃ h, σ.obj o = some h ∧ h.init = true ∧ h.err = false) ∧ ¬ σ.BeingDestroyed o

/-- A ready object that has no holder. -/
def State.Unheld (σ : State T ι O) (o : O) : Prop := σ.IsReady o ∧ σ.holders o = 0

theorem Pc.Fits.disposing (hfits : pc.Fits phase) (hphase : phase o = .dead id)
    (hrefs : 0 < pc.refs o) : ∃ next, pc = .disposing o next := by
  cases pc <;> grind [refs, Pc.Fits]

theorem Pc.Fits.awaits_eq (hfits : pc.Fits phase) (hphase : phase o = .ready id) :
    pc.awaits o = pc.refs o := by
  cases pc <;> grind [refs, Pc.Fits, awaits]

theorem Inv.isReady_iff (h : Inv σ phase) : σ.IsReady o ↔ ∃ id, phase o = .ready id := by
  have hobj := h.obj_eq o
  constructor
  · rintro ⟨⟨hd, hsome, hinit, herr⟩, hdestroyed⟩
    rw [hsome] at hobj
    cases hphase : phase o with
    | ready id => exact ⟨id, rfl⟩
    | absent =>
      rw [hphase] at hobj
      cases hobj
    | fresh id =>
      rw [hphase] at hobj
      obtain rfl := some.inj hobj
      cases hinit
    | error id =>
      rw [hphase] at hobj
      obtain rfl := some.inj hobj
      cases herr
    | destroying id =>
      rw [hphase] at hobj
      obtain rfl := some.inj hobj
      exact absurd (.inl ⟨_, hsome, rfl⟩) hdestroyed
    | dead id =>
      -- The references to a dead object are those of a thread which disposes of it.
      obtain ⟨t, ht⟩ := exists_of_tally_pos (h.counts_of hphase)
      have hheld := h.held_eq_zero (o := o) (by simp [hphase]) t
      have hfits := (h.fits t).pc
      rw [contrib, hheld, zero_add] at ht
      exact absurd (.inr ⟨t, hfits.disposing hphase ht⟩) hdestroyed
  · rintro ⟨id, hphase⟩
    rw [hphase] at hobj
    refine ⟨⟨_, hobj, rfl, rfl⟩, ?_⟩
    rintro (⟨hd, hsome, hdestroy⟩ | ⟨t, next, hpc⟩)
    · obtain rfl := some.inj (hsome.symm.trans hobj)
      cases hdestroy
    · have hfits := (h.fits t).pc
      rw [hpc] at hfits
      obtain ⟨id', hdead⟩ := hfits
      rw [hphase] at hdead
      cases hdead

theorem Inv.holders_eq (h : Inv σ phase) (hphase : phase o = .ready id) :
    σ.holders o = σ.refsTo o := by
  refine Finset.sum_congr rfl fun t _ => ?_
  have hfits := (h.fits t).pc
  dsimp only [Local.holds, contrib]
  rw [hfits.awaits_eq hphase]

theorem Inv.unheld_iff (h : Inv σ phase) : σ.Unheld o ↔ o ∈ σ.lru := by
  constructor
  · rintro ⟨hready, hzero⟩
    obtain ⟨id, hphase⟩ := h.isReady_iff.mp hready
    rw [h.holders_eq hphase] at hzero
    rw [h.lru_iff, hphase]
    exact ⟨trivial, hzero⟩
  · intro hmem
    obtain ⟨⟨id, hphase⟩, hzero⟩ := h.ready_of_mem_lru hmem
    exact ⟨h.isReady_iff.mpr ⟨id, hphase⟩, (h.holders_eq hphase).trans hzero⟩

end Holders

variable [DecidableEq T]

/-! ## Looking for an object -/

section Seek

/-- **The references that a thread holds to a ready object change**, and with them the one that it
may have waited for. What is left to show is that the object is on the list it belongs to, and that
the LRU list is in order. -/
theorem Inv.setHeld {n k : ℕ} (h : Inv σ phase) (hphase : phase o = .ready id)
    (hrefs : ∀ x, x ≠ o → (σ.loc t).pc.refs x = 0)
    (hn : n + ((σ.loc t).held o + (σ.loc t).pc.refs o) = σ.refsTo o + k)
    (hloc : σ'.loc = update σ.loc t ⟨.idle, update (σ.loc t).held o k⟩)
    (hobj : σ'.obj = update σ.obj o ((Phase.ready id).header n)) (hhash : σ'.hash = σ.hash)
    (hlists : Placed σ.active σ'.active o ((Phase.ready id).Listed ∧ 0 < n) ∧
      Placed σ.lru σ'.lru o ((Phase.ready id).Listed ∧ n = 0))
    (horder : InOrder σ'.lru σ'.lastPut σ'.clock) :
    Inv σ' (update phase o (.ready id)) := by
  have hkeyed : Keyed σ.hash σ'.hash o (.ready id) := by
    rw [hhash]
    exact h.keyed (by rw [hphase])
  refine h.move t _ o (.ready id) n hloc (fun x hx => ?_) ?_ trivial hobj hkeyed hlists ?_
    (h.others t hphase) (by rintro x ⟨⟩) horder
  · -- the thread holds as many of the other objects as before
    rw [contrib, contrib, hrefs x hx]
    exact update_of_ne hx ..
  · rw [contrib, hn]
    change _ = σ.refsTo o + (update (σ.loc t).held o k o + 0)
    rw [update_self]
    rfl
  · rw [← hphase, update_eq_self]
    refine ⟨trivial, fun x hx => ?_⟩
    by_cases hxo : x = o
    · exact ⟨id, hxo ▸ hphase⟩
    · dsimp only at hx
      rw [update_of_ne hxo] at hx
      exact (h.fits t).held x hx

variable (h : Inv σ phase)

include h

theorem Inv.seek_ready (hpc : (σ.loc t).pc = .seek call) (hphase : phase o = .ready id) :
    ∃ σ', (σ.setHeader o ⟨σ.refsTo o + 3, true, true, false, false, some id⟩).found t call o
        (σ.refsTo o + 2) = .ok σ' ∧ Inv σ' (update phase o (.ready id)) := by
  have hrefs := refs_of_seek hpc
  have hn : σ.refsTo o + 1 + ((σ.loc t).held o + (σ.loc t).pc.refs o) =
      σ.refsTo o + ((σ.loc t).held o + 1) := by
    rw [hrefs]
    omega
  have hlisted : (phase o).Listed := by rw [hphase]; trivial
  unfold found setHeader
  simp only [update_self]
  rw [if_neg (by simp), if_neg (by simp), if_neg (by simp), if_neg (by simp), if_neg (by omega)]
  by_cases hzero : σ.refsTo o = 0
  · -- Nobody has it: it goes from one list to the other.
    have hmem : o ∈ σ.lru := (h.lru_iff o).mpr ⟨hlisted, hzero⟩
    have hnot : o ∉ σ.active := fun hmem => ((h.active_iff o).mp hmem).2.ne' hzero
    rw [if_pos (by omega), if_neg (length_pos_of_mem hmem).ne', if_pos hmem]
    exact ⟨_, rfl, h.setHeld hphase (fun x _ => hrefs x) hn rfl rfl rfl
      ⟨.cons h.active_nodup hnot ⟨trivial, succ_pos _⟩, .erase h.lru_nodup (by omega)⟩
      (h.inOrder.sublist erase_sublist)⟩
  · -- It stays on the active list.
    rw [if_neg (by omega)]
    exact ⟨_, rfl, h.setHeld hphase (fun x _ => hrefs x) hn rfl rfl rfl
      (h.placed_active hlisted (pos_of_ne_zero hzero) (by trivial) (succ_pos _)) h.inOrder⟩

theorem Inv.seek_fresh (hpc : (σ.loc t).pc = .seek call) (hphase : phase o = .fresh id) :
    Inv ((σ.setHeader o ⟨σ.refsTo o + 3, true, false, false, false, none⟩).goto t
      (.waiting call o (σ.refsTo o + 2) false)) (update phase o (.fresh id)) := by
  have hrefs := refs_of_seek hpc
  have hpos : 0 < σ.refsTo o := h.counts_of hphase
  refine h.movePc t (.waiting call o (σ.refsTo o + 2) false) o (.fresh id) (σ.refsTo o + 1) rfl
    (fun x hx => ?_) ?_ (succ_pos _) rfl (h.keyed (by rw [hphase]))
    (h.placed_active (by rw [hphase]; trivial) hpos (by trivial) (succ_pos _)) ?_ (.inr hphase)
    (h.others t hphase) (by rintro x ⟨⟩) h.inOrder
  · rw [hrefs, refs, if_neg hx.symm]
  · rw [hrefs, refs, if_pos rfl]
  · exact ⟨by omega, id, .inl ⟨rfl, update_self ..⟩⟩

theorem Inv.create [DecidableEq ι] (hpc : (σ.loc t).pc = .seek call) {new : O}
    (hlookup : σ.hash.lookup id = none) (hnew : σ.obj new = none) :
    Inv (σ.create t id new) (update phase new (.fresh id)) := by
  have hrefs := refs_of_seek hpc
  have hphase := h.absent_of_none hnew
  have hzero : σ.refsTo new = 0 := h.counts_of hphase
  have hheld := h.held_eq_zero (o := new) (by simp [hphase]) t
  have hunlisted : ¬ (phase new).Listed := by rw [hphase]; exact not_false
  have hnotowns := h.not_owns (o := new) (by simp [hphase]) (by simp [hphase])
  have hkey : ∀ id', (id', new) ∉ σ.hash := by
    intro id' hmem
    rw [h.hash_iff, hphase] at hmem
    cases hmem
  obtain ⟨-, hlru⟩ := h.placed_unlisted (p := .absent) hunlisted not_false 1
  refine h.movePc t (.init id new) new (.fresh id) 1 rfl (fun x hx => ?_) ?_ one_pos rfl
    ⟨nodup_tableInsert h.keys, fun id' => (mem_tableInsert hlookup).trans ?_, fun id' x hx =>
      (mem_tableInsert hlookup).trans (by simp [hx])⟩
    ⟨.cons h.active_nodup (fun hmem => hunlisted ((h.active_iff new).mp hmem).1)
      ⟨trivial, one_pos⟩, ⟨hlru.nodup, iff_of_false (fun hmem => hunlisted
        ((h.lru_iff new).mp hmem).1) (by simp), hlru.rest⟩⟩
    (update_self ..) (.inl hheld) ?_ ?_ h.inOrder
  · rw [hrefs, refs, if_neg hx.symm]
  · rw [hrefs, hzero, refs, if_pos rfl]
  · simp only [hkey, or_false, Prod.mk.injEq, and_true, key, some.injEq]
    exact eq_comm
  · refine h.others_of_unmentioned ?_ (fun u _ => hnotowns u) _
    omega
  · rintro x hx u -
    obtain rfl := some.inj hx
    exact hnotowns u

/-- **One round** of `kobj_lru_get` or `kobj_lru_lookup_cached`. -/
theorem Inv.seek [DecidableEq ι] (hpc : (σ.loc t).pc = .seek call) {new : O}
    (hnew : σ.hash.lookup call.id = none → σ.obj new = none) : Keeps (σ.seek t call new) := by
  have hrefs := refs_of_seek hpc
  unfold State.seek
  cases hlookup : σ.hash.lookup call.id with
  | some o =>
    dsimp only
    have hobj := h.obj_eq o
    rcases h.lookup hlookup with hphase | hphase | hphase
    · rw [hphase] at hobj
      rw [hobj]
      exact ⟨_, _, rfl, h.seek_fresh hpc hphase⟩
    · rw [hphase] at hobj
      rw [hobj]
      obtain ⟨σ', hok, h'⟩ := h.seek_ready hpc hphase
      exact ⟨σ', _, hok, h'⟩
    · rw [hphase] at hobj
      rw [hobj]
      exact ⟨_, _, rfl, h.goto t _ (fun x => (hrefs x).symm) rfl trivial⟩
  | none =>
    dsimp only
    cases call with
    | lookup id => exact ⟨_, _, rfl, h.goto t _ (fun x => (hrefs x).symm) rfl trivial⟩
    | get id tried =>
      dsimp only
      split
      · exact ⟨_, _, rfl, h.goto t _ (fun x => (hrefs x).symm) rfl trivial⟩
      · exact ⟨_, _, rfl, h.create hpc hlookup (hnew hlookup)⟩

theorem Inv.give (hrefs : ∀ x, (σ.loc t).pc.refs x = if o = x then 1 else 0)
    (hphase : phase o = .ready id) :
    0 < σ.refsTo o ∧ Inv (σ.hold t o) (update phase o (.ready id)) := by
  have hself : (σ.loc t).pc.refs o = 1 := by rw [hrefs, if_pos rfl]
  have hpos : 0 < σ.refsTo o := by
    have hle := le_tally (contrib o) σ.loc t
    rw [contrib, hself] at hle
    rw [refsTo]
    omega
  refine ⟨hpos, h.setHeld hphase (fun x hx => ?_) (by rw [hself]) rfl ?_ rfl
    (h.placed_active (by rw [hphase]; trivial) hpos (by trivial) hpos) h.inOrder⟩
  · rw [hrefs, if_neg hx.symm]
  · rw [← hphase, ← h.obj_eq, update_eq_self]
    rfl

theorem Inv.wake {ref : ℕ} (hpc : (σ.loc t).pc = .waiting call o ref true) :
    Keeps (σ.found t call o ref) := by
  obtain ⟨href, id, hphase⟩ := h.fits_pc hpc
  have hobj := h.obj_eq o
  have hrefs : ∀ x, (σ.loc t).pc.refs x = if o = x then 1 else 0 := by
    intro x
    rw [hpc]
    rfl
  unfold found
  rcases hphase with ⟨hfalse, -⟩ | hphase | hphase
  · cases hfalse
  · obtain ⟨hpos, h'⟩ := h.give hrefs hphase
    rw [hphase] at hobj
    rw [hobj]
    simp only [header]
    rw [if_neg (by simp), if_neg (by simp), if_neg (by simp), if_neg (by simp), if_neg (by omega),
      if_neg (by omega)]
    exact ⟨_, _, rfl, h'⟩
  · rw [hphase] at hobj
    rw [hobj]
    refine ⟨_, phase, rfl, h.goto t _ (fun x => ?_) rfl ⟨one_pos, id, hphase⟩⟩
    rw [hpc]
    rfl

end Seek

/-! ## Initialisers -/

section Initialisers

variable (h : Inv σ phase)

include h

theorem Inv.markReady [DecidableEq ι] (hpc : (σ.loc t).pc = .init id o) :
    Keeps (σ.markReady t id o) := by
  obtain ⟨hphase, hpos, hhash, howns⟩ := h.initialiser hpc
  have hobj := h.obj_of hphase
  have hmem : ∀ id' x, (id', x) ∈ tableInsert (tableDelete σ.hash id) id o ↔
      (id', x) = (id, o) ∨ id' ≠ id ∧ (id', x) ∈ σ.hash := by
    intro id' x
    rw [mem_tableInsert (lookup_tableDelete h.keys), mem_tableDelete h.keys]
  unfold State.markReady
  rw [hobj]
  refine ⟨_, update phase o (.ready id), rfl, ?_⟩
  refine h.movePc t (.readied o) o (.ready id) (σ.refsTo o) rfl (fun x _ => ?_) ?_ trivial rfl
    ⟨nodup_tableInsert (nodup_tableDelete h.keys), fun id' => (hmem id' o).trans ?_,
      fun id' x hx => (hmem id' x).trans ?_⟩
    (h.placed_active (by rw [hphase]; trivial) hpos (by trivial) hpos) ⟨id, update_self ..⟩
    (.inl (h.held_eq_zero (by simp [hphase]) t)) (h.others_of_fresh hphase howns (.inl rfl))
    (by rintro x ⟨⟩) h.inOrder
  · rw [hpc]
    rfl
  · rw [hpc]
    rfl
  · -- The object is under its identifier, and under no other one.
    rw [h.hash_iff, hphase, Prod.mk.injEq]
    simp only [key, some.injEq]
    constructor
    · rintro (⟨rfl, -⟩ | ⟨-, rfl⟩) <;> rfl
    · rintro rfl
      exact .inl ⟨rfl, trivial⟩
  · constructor
    · rintro (heq | ⟨-, hold⟩)
      · exact absurd (congrArg Prod.snd heq) hx
      · exact hold
    · intro hold
      refine .inr ⟨?_, hold⟩
      rintro rfl
      exact hx (h.hash_unique hold hhash)

theorem Inv.markError [DecidableEq ι] (hpc : (σ.loc t).pc = .init id o) :
    Keeps (σ.markError t id o) := by
  obtain ⟨hphase, hpos, -, howns⟩ := h.initialiser hpc
  obtain ⟨hactive, hlru⟩ := h.mem_active (by rw [hphase]; trivial) hpos
  have hobj := h.obj_of hphase
  unfold State.markError
  rw [hobj]
  dsimp only [header]
  rw [if_pos hactive]
  refine ⟨_, update phase o (.error id), rfl, ?_⟩
  refine h.movePc t (.failed o) o (.error id) (σ.refsTo o + 2) rfl (fun x hx => ?_) ?_
    (succ_pos _) rfl (h.keyed_delete (by rw [hphase]; rfl) rfl)
    ⟨.erase h.active_nodup (by simp [Phase.Listed]),
      .same h.lru_nodup (iff_of_false hlru (by simp))⟩ ⟨id, update_self ..⟩
    (.inl (h.held_eq_zero (by simp [hphase]) t)) (h.others_of_fresh hphase howns (.inr rfl))
    (by rintro x ⟨⟩) h.inOrder
  · rw [hpc, refs, refs, if_neg hx.symm, if_neg hx.symm]
  · rw [hpc, refs, refs, if_pos rfl, if_pos rfl]

theorem Inv.unblock_readied (hpc : (σ.loc t).pc = .readied o) :
    ∃ phase', Inv ((σ.unblockAll o).hold t o) phase' := by
  obtain ⟨id, hphase⟩ := h.fits_pc hpc
  have hrefs : ∀ x, ((σ.unblockAll o).loc t).pc.refs x = if o = x then 1 else 0 := by
    intro x
    simp only [State.unblockAll, State.wakeUp, hpc]
    rfl
  exact ⟨_, ((h.unblockAll (by simp [hphase])).give hrefs hphase).2⟩

theorem Inv.unblock_failed (hpc : (σ.loc t).pc = .failed o) :
    Inv ((σ.unblockAll o).goto t (.dropping o 3 none)) phase := by
  obtain ⟨id, hphase⟩ := h.fits_pc hpc
  have hloc : (σ.unblockAll o).loc t = σ.loc t := by
    simp only [State.unblockAll, State.wakeUp, hpc]
  refine (h.unblockAll (by simp [hphase])).goto t _ (fun x => ?_) rfl ⟨by omega, id, hphase⟩
  rw [hloc, hpc]
  rfl

end Initialisers

/-! ## Dropping references -/

variable {next : Option (Call ι)}

section Drop

variable (h : Inv σ phase)

include h

/-- **`__kobj_putref` without the lock**, on an object that has left the cache. -/
theorem Inv.putref (pc : Pc ι O) {p : Phase ι} (hp : p = .error id ∨ p = .dead id)
    (hphase : phase o = p) (hrefs : (σ.loc t).pc.refs o = pc.refs o + 1)
    (hother : ∀ x, x ≠ o → pc.refs x = (σ.loc t).pc.refs x) (howns : pc.owns = none)
    (hfits : σ.refsTo o ≠ 1 → pc.Fits phase) (hgone : σ.refsTo o = 1 → ∀ phase', pc.Fits phase') :
    ∃ σ' phase', (do let (σ, _) ← σ.putref o; .ok (σ.goto t pc)) = .ok σ' ∧ Inv σ' phase' := by
  have hheld := h.held_eq_zero (o := o) (by rcases hp with rfl | rfl <;> simp [hphase]) t
  have hnotowns := h.not_owns (o := o) (by rcases hp with rfl | rfl <;> simp [hphase])
    (by rcases hp with rfl | rfl <;> simp [hphase])
  have hunlisted : ¬ p.Listed := by rcases hp with rfl | rfl <;> exact not_false
  have hkey : p.key = none := by rcases hp with rfl | rfl <;> rfl
  have hle : contrib o (σ.loc t) ≤ σ.refsTo o := le_tally (contrib o) σ.loc t
  rw [contrib, hheld, hrefs] at hle
  obtain ⟨hd, hobj, hhead⟩ : ∃ hd : Header ι, σ.obj o = some hd ∧ hd.refs = σ.refsTo o ∧
      ∀ n, p.header n = some { hd with refs := n } := by
    rw [h.obj_eq, hphase]
    rcases hp with rfl | rfl <;> exact ⟨_, rfl, rfl, fun _ => rfl⟩
  have hnone : ∀ x, pc.owns = some x → ∀ u, u ≠ t → (σ.loc u).pc.owns ≠ some x := by
    intro x hx
    rw [howns] at hx
    cases hx
  unfold State.putref
  rw [hobj]
  dsimp only
  rw [if_neg (by omega)]
  by_cases hlast : σ.refsTo o = 1
  · rw [if_pos (by omega)]
    refine ⟨_, update phase o .absent, rfl, ?_⟩
    refine h.movePc t pc o .absent 0 rfl hother (by omega) rfl rfl
      (h.keyed (by rw [hphase, hkey]; rfl))
      (h.placed_unlisted (by rw [hphase]; exact hunlisted) (by exact not_false) 0) (hgone hlast _)
      (.inl hheld)
      (h.others_of_unmentioned ?_ (fun u _ => hnotowns u) _) hnone h.inOrder
    rw [contrib, hrefs]
    omega
  · rw [if_neg (by omega)]
    refine ⟨_, update phase o p, rfl, ?_⟩
    refine h.movePc t pc o p (σ.refsTo o - 1) rfl hother (by omega) ?_ ?_ (h.keyed (by rw [hphase]))
      (h.placed_unlisted (by rw [hphase]; exact hunlisted) hunlisted _) ?_ (.inr hphase)
      (h.others t hphase) hnone h.inOrder
    · rcases hp with rfl | rfl
      · exact (by omega : 0 < σ.refsTo o - 1)
      · exact (by omega : 0 < σ.refsTo o - 1)
    · rw [hhead.2, ← hhead.1]
      rfl
    · rw [← hphase, update_eq_self]
      exact hfits hlast

theorem Inv.drop_dropping {n : ℕ} (hpc : (σ.loc t).pc = .dropping o n next) : ∃ σ' phase', (do
      let (σ, _) ← σ.putref o
      .ok (σ.goto t (if n = 1 then resume next else .dropping o (n - 1) next))) = .ok σ' ∧
        Inv σ' phase' := by
  obtain ⟨hn, id, hphase⟩ := h.fits_pc hpc
  have hle : n ≤ σ.refsTo o := by
    have hle := le_tally (contrib o) σ.loc t
    rw [contrib, hpc, refs, if_pos rfl] at hle
    rw [refsTo]
    omega
  by_cases hlast : n = 1
  · subst hlast
    rw [if_pos rfl]
    refine h.putref _ (.inl rfl) hphase ?_ ?_ (owns_resume next) (fun _ => fits_resume next)
      (fun _ _ => fits_resume next)
    · rw [hpc, refs_resume, refs, if_pos rfl]
    · intro x hx
      rw [hpc, refs_resume, refs, if_neg hx.symm]
  · rw [if_neg hlast]
    refine h.putref _ (.inl rfl) hphase ?_ ?_ rfl (fun _ => ⟨by omega, id, hphase⟩) (by omega)
    · rw [hpc, refs, refs, if_pos rfl, if_pos rfl]
      omega
    · intro x hx
      rw [hpc, refs, refs, if_neg hx.symm, if_neg hx.symm]

theorem Inv.drop_disposing (hpc : (σ.loc t).pc = .disposing o next) : ∃ σ' phase', (do
      let (σ, _) ← σ.putref o
      .ok (σ.goto t (resume next))) = .ok σ' ∧ Inv σ' phase' := by
  obtain ⟨id, hphase⟩ := h.fits_pc hpc
  refine h.putref _ (.inr rfl) hphase ?_ ?_ (owns_resume next) (fun _ => fits_resume next)
    (fun _ _ => fits_resume next)
  · rw [hpc, refs_resume, refs, if_pos rfl]
  · intro x hx
    rw [hpc, refs_resume, refs, if_neg hx.symm]

/-- **`kobj_lru_put`**: the object goes to the head of the LRU list with the last reference. -/
theorem Inv.put (hpc : (σ.loc t).pc = .idle) (hheld : 0 < (σ.loc t).held o) :
    Keeps (σ.put t o) := by
  obtain ⟨id, hphase⟩ := (h.fits t).held o hheld
  have hidle : (σ.loc t).pc.refs o = 0 := by rw [hpc]; rfl
  have hrefs : ∀ x, x ≠ o → (σ.loc t).pc.refs x = 0 := fun x _ => by rw [hpc]; rfl
  have hle : (σ.loc t).held o ≤ σ.refsTo o :=
    (le_add_right _ _).trans (le_tally (contrib o) σ.loc t)
  have hlisted : (phase o).Listed := by rw [hphase]; trivial
  obtain ⟨hactive, hlru⟩ := h.mem_active hlisted (by omega)
  obtain ⟨n, hn⟩ : ∃ n, σ.refsTo o = n + 1 := ⟨σ.refsTo o - 1, by omega⟩
  have hobj := h.obj_of hphase
  rw [hn] at hobj
  -- No other object on the list was put.
  have hput : ∀ x ∈ σ.lru, update σ.lastPut o σ.clock x = σ.lastPut x := by
    intro x hx
    refine update_of_ne ?_ ..
    rintro rfl
    exact hlru hx
  have hpast : ∀ x ∈ σ.lru, update σ.lastPut o σ.clock x < σ.clock := by
    intro x hx
    rw [hput x hx]
    exact h.past x hx
  unfold State.put State.putref
  simp only [hobj, header]
  rw [if_neg (by simp), if_neg (by omega), if_neg (by omega)]
  dsimp only [bind, Except.bind, setHeader]
  rw [if_neg (by omega)]
  by_cases hlast : n = 0
  · subst hlast
    rw [if_pos (by simp), if_neg (length_pos_of_mem hactive).ne', if_pos hactive]
    refine ⟨_, _, rfl, h.setHeld hphase hrefs (by omega) rfl rfl rfl
      ⟨.erase h.active_nodup (by simp), .cons h.lru_nodup hlru ⟨trivial, rfl⟩⟩ ⟨?_, ?_⟩⟩
    · refine pairwise_cons.mpr ⟨fun x hx => ?_, h.order_congr hput⟩
      dsimp only
      rw [update_self]
      exact hpast x hx
    · intro x hx
      rcases mem_cons.mp hx with rfl | hx
      · dsimp only
        rw [update_self]
        exact lt_succ_self _
      · exact (hpast x hx).trans (lt_succ_self _)
  · rw [if_neg (by omega)]
    exact ⟨_, _, rfl, h.setHeld hphase hrefs (by omega) rfl rfl rfl
      (h.placed_active hlisted (by omega) (by trivial) (pos_of_ne_zero hlast))
      ⟨h.order_congr hput, fun x hx => (hpast x hx).trans (lt_succ_self _)⟩⟩

end Drop

/-! ## Reclaiming -/

section Reclaim

variable {next : Option (Call ι)}

theorem Inv.take (h : Inv σ phase) (hpc : (σ.loc t).pc = .reclaim next) :
    Keeps (σ.take t next) := by
  have hrefs : ∀ x, (σ.loc t).pc.refs x = 0 := by
    intro x
    rw [hpc]
    rfl
  unfold State.take
  cases hlast : σ.lru.getLast? with
  | none =>
    refine ⟨_, phase, rfl, h.goto t _ (fun x => ?_) (owns_resume next) (fits_resume next)⟩
    rw [refs_resume, hrefs]
  | some o =>
    obtain ⟨⟨id, hphase⟩, hzero⟩ := h.ready_of_mem_lru (mem_of_getLast? hlast)
    have hheld : (σ.loc t).held o = 0 := by
      have hle := le_tally (contrib o) σ.loc t
      rw [State.refsTo] at hzero
      rw [contrib] at hle
      omega
    have hnotowns := h.not_owns (o := o) (by simp [hphase]) (by simp [hphase])
    have hobj := h.obj_of hphase
    rw [hzero] at hobj
    have hlru : σ.lru = σ.lru.dropLast ++ [o] := by
      have := dropLast_append_getLast? o hlast
      exact this.symm
    have hnodup := h.lru_nodup
    rw [hlru, nodup_append] at hnodup
    have hnotin : o ∉ σ.lru.dropLast := fun hmem => hnodup.2.2 o hmem o (by simp) rfl
    have hsub := dropLast_sublist σ.lru
    dsimp only
    rw [hobj]
    simp only [header, State.putref, State.setHeader, update_self, if_true]
    rw [if_neg (by omega), if_neg (by omega)]
    refine ⟨_, update phase o (.destroying id), rfl, ?_⟩
    refine h.movePc t (.releasing o next) o (.destroying id) 0 rfl (fun x _ => ?_) ?_ rfl
      (update_idem ..) (h.keyed (by rw [hphase]; rfl))
      ⟨.same h.active_nodup (iff_of_false (fun hmem => ?_) (by simp)), hnodup.1,
        iff_of_false hnotin (by simp [Phase.Listed]), fun x hx => ?_⟩
      ⟨id, update_self ..⟩ (.inl hheld)
      (h.others_of_unmentioned (by omega) (fun u _ => hnotowns u) _) ?_ (h.inOrder.sublist hsub)
    · rw [hrefs]
      rfl
    · rw [hrefs, hzero]
      rfl
    · exact ((h.active_iff o).mp hmem).2.ne' hzero
    · have hmem : x ∈ σ.lru ↔ x ∈ σ.lru.dropLast := by
        rw [hlru, mem_append, dropLast_concat]
        simp [hx]
      exact hmem.symm
    · intro x hx u _
      obtain rfl := some.inj hx
      exact hnotowns u

theorem Inv.delete [DecidableEq ι] (h : Inv σ phase) (hpc : (σ.loc t).pc = .releasing o next) :
    Keeps (σ.delete t o next) := by
  obtain ⟨id, hphase⟩ := h.fits_pc hpc
  have hzero : σ.refsTo o = 0 := h.counts_of hphase
  have hobj := h.obj_of hphase
  rw [hzero] at hobj
  have hhash : (id, o) ∈ σ.hash := by
    rw [h.hash_iff, hphase]
    rfl
  unfold State.delete
  rw [hobj]
  simp only [header]
  rw [(lookup_eq_some h.keys).mpr hhash, if_pos isSome_some]
  refine ⟨_, update phase o (.dead id), rfl, ?_⟩
  refine h.movePc t (.disposing o next) o (.dead id) 1 rfl (fun x hx => ?_) ?_ one_pos rfl
    (h.keyed_delete (by rw [hphase]; rfl) rfl)
    (h.placed_unlisted (by rw [hphase]; exact not_false) (by exact not_false) 1)
    ⟨id, update_self ..⟩ (.inl (h.held_eq_zero (by simp [hphase]) t))
    (h.others_of_unmentioned (by omega) (fun u hu howns => hu ?_) _) (by rintro x ⟨⟩) h.inOrder
  · rw [hpc, refs, if_neg hx.symm]
    rfl
  · rw [hpc, hzero, refs, if_pos rfl]
    rfl
  · exact h.owner u t o howns (by rw [hpc]; rfl)

end Reclaim

/-! ## Steps and runs -/

variable [DecidableEq ι]

/-- **A step keeps the invariant, and does not panic.** -/
theorem Inv.exec (h : Inv σ phase) {e : Event T ι O} (hready : e.Ready σ) : Keeps (σ.exec e) := by
  have hidle : ∀ t pc, (σ.loc t).pc = .idle → (∀ x, refs x pc = 0) → pc.owns = none →
      pc.Fits phase → Inv (σ.goto t pc) phase := by
    intro t pc hpc hrefs
    refine h.goto t pc fun x => ?_
    rw [hrefs, hpc]
    rfl
  cases e with
  | get t id => exact ⟨_, phase, rfl, hidle t _ hready (fun _ => rfl) rfl trivial⟩
  | lookup t id => exact ⟨_, phase, rfl, hidle t _ hready (fun _ => rfl) rfl trivial⟩
  | reclaim t => exact ⟨_, phase, rfl, hidle t _ hready (fun _ => rfl) rfl trivial⟩
  | seek t new =>
    obtain ⟨call, hpc, hnew⟩ := hready
    simp only [State.exec, hpc]
    exact h.seek hpc hnew
  | wake t =>
    obtain ⟨call, o, ref, hpc⟩ := hready
    simp only [State.exec, hpc]
    exact h.wake hpc
  | markReady t =>
    obtain ⟨id, o, hpc⟩ := hready
    simp only [State.exec, hpc]
    exact h.markReady hpc
  | markError t =>
    obtain ⟨id, o, hpc⟩ := hready
    simp only [State.exec, hpc]
    exact h.markError hpc
  | unblock t =>
    obtain ⟨o, hpc | hpc⟩ := hready
    · simp only [State.exec, hpc]
      obtain ⟨phase', h'⟩ := h.unblock_readied hpc
      exact ⟨_, phase', rfl, h'⟩
    · simp only [State.exec, hpc]
      exact ⟨_, phase, rfl, h.unblock_failed hpc⟩
  | drop t =>
    obtain ⟨o, n, next, hpc⟩ | ⟨o, next, hpc⟩ := hready
    · simp only [State.exec, hpc]
      exact h.drop_dropping hpc
    · simp only [State.exec, hpc]
      exact h.drop_disposing hpc
  | put t o =>
    obtain ⟨hpc, hheld⟩ := hready
    exact h.put hpc hheld
  | take t =>
    obtain ⟨next, hpc⟩ := hready
    simp only [State.exec, hpc]
    exact h.take hpc
  | delete t =>
    obtain ⟨o, next, hpc⟩ := hready
    simp only [State.exec, hpc]
    exact h.delete hpc

/-- What holds between two steps. -/
structure Sound (σ : State T ι O) : Prop where
  /-- At most one object is in the table for an identifier. -/
  unique : (σ.hash.map Prod.fst).Nodup
  /-- The count of a ready object is two more than the number of holders. -/
  refs_eq : ∀ o, σ.IsReady o → ∃ h, σ.obj o = some h ∧ h.refs = 2 + σ.holders o
  lru_iff : ∀ o, σ.IsReady o → (o ∈ σ.lru ↔ σ.holders o = 0)
  active_iff : ∀ o, σ.IsReady o → (o ∈ σ.active ↔ 0 < σ.holders o)
  no_panic : ∀ e : Event T ι O, e.Ready σ → ∃ τ, σ.exec e = .ok τ

/-- `kobj_lru_reclaim` takes the unheld object that was put before all others, and does nothing only
if there is none; the object that it took leaves the table. -/
def EvictsOldest (σ : State T ι O) (e : Event T ι O) (τ : State T ι O) : Prop :=
  match e with
  | .take t => (∀ o, ¬ σ.Unheld o) ∧ τ.obj = σ.obj ∨
    ∃ o next, (τ.loc t).pc = .releasing o next ∧ τ.BeingDestroyed o ∧ σ.Unheld o ∧
      ∀ x, σ.Unheld x → x ≠ o → σ.lastPut o < σ.lastPut x
  | .delete t => ∃ o next, (σ.loc t).pc = .releasing o next ∧ ∀ id, (id, o) ∉ τ.hash
  | _ => True

section Sound

/-- **The invariant says that the cache is sound.** -/
theorem Inv.sound (h : Inv σ phase) : Sound σ := by
  refine ⟨h.keys, fun o hready => ?_, fun o hready => ?_, fun o hready => ?_, fun e he => ?_⟩
  · obtain ⟨id, hphase⟩ := h.isReady_iff.mp hready
    have hobj := h.obj_eq o
    rw [hphase, ← h.holders_eq hphase] at hobj
    exact ⟨_, hobj, add_comm ..⟩
  · obtain ⟨id, hphase⟩ := h.isReady_iff.mp hready
    rw [h.lru_iff, h.holders_eq hphase, hphase]
    exact and_iff_right trivial
  · obtain ⟨id, hphase⟩ := h.isReady_iff.mp hready
    rw [h.active_iff, h.holders_eq hphase, hphase]
    exact and_iff_right trivial
  · obtain ⟨τ, -, hexec, -⟩ := h.exec he
    exact ⟨τ, hexec⟩

variable {τ : State T ι O}

omit [DecidableEq ι] in
theorem Inv.take_evicts (h : Inv σ phase) (htake : σ.take t next = .ok τ) :
    EvictsOldest σ (.take t) τ := by
  unfold State.take at htake
  cases hlast : σ.lru.getLast? with
  | none =>
    rw [hlast] at htake
    obtain rfl := ok.inj htake
    refine .inl ⟨fun o hunheld => ?_, rfl⟩
    have hmem := h.unheld_iff.mp hunheld
    rw [getLast?_eq_none_iff.mp hlast] at hmem
    cases hmem
  | some o =>
    have hmem := mem_of_getLast? hlast
    obtain ⟨⟨id, hphase⟩, hzero⟩ := h.ready_of_mem_lru hmem
    have hobj := h.obj_of hphase
    rw [hzero] at hobj
    rw [hlast] at htake
    simp only [hobj, header, State.putref, State.setHeader, update_self,
      if_true] at htake
    rw [if_neg (by omega), if_neg (by omega)] at htake
    obtain rfl := ok.inj htake
    refine .inr ⟨o, next, ?_, .inl ⟨_, update_self .., rfl⟩, h.unheld_iff.mpr hmem,
      fun x hx hne => ?_⟩
    · rw [State.goto]
      dsimp only
      rw [update_self]
    · -- The object is the last one of the list, and the list is in the order of the puts.
      have hlru : σ.lru = σ.lru.dropLast ++ [o] := (dropLast_append_getLast? o hlast).symm
      have horder := h.order
      have hx' := h.unheld_iff.mp hx
      rw [hlru] at horder hx'
      have hbefore : x ∈ σ.lru.dropLast := by
        simpa [hne] using hx'
      exact (pairwise_append.mp horder).2.2 x hbefore o (by simp)

theorem Inv.delete_evicts (h : Inv σ phase) (hpc : (σ.loc t).pc = .releasing o next)
    (hdelete : σ.delete t o next = .ok τ) : EvictsOldest σ (.delete t) τ := by
  obtain ⟨id, hphase⟩ := h.fits_pc hpc
  have hobj := h.obj_of hphase
  refine ⟨o, next, hpc, fun id' hmem => ?_⟩
  unfold State.delete at hdelete
  simp only [hobj, header] at hdelete
  split at hdelete
  · obtain rfl := ok.inj hdelete
    obtain ⟨hne, hold⟩ := (mem_tableDelete h.keys).mp hmem
    rw [h.hash_iff, hphase] at hold
    exact hne (some.inj hold).symm
  · cases hdelete

theorem Inv.step (h : Inv σ phase) {e : Event T ι O} (hstep : Step σ e τ) :
    (∃ phase', Inv τ phase') ∧ EvictsOldest σ e τ := by
  obtain ⟨hready, hexec⟩ := hstep
  obtain ⟨τ', phase', hexec', h'⟩ := h.exec hready
  obtain rfl := ok.inj (hexec.symm.trans hexec')
  refine ⟨⟨phase', h'⟩, ?_⟩
  cases e with
  | take t =>
    obtain ⟨next, hpc⟩ := hready
    simp only [State.exec, hpc] at hexec
    exact h.take_evicts hexec
  | delete t =>
    obtain ⟨o, next, hpc⟩ := hready
    simp only [State.exec, hpc] at hexec
    exact h.delete_evicts hpc hexec
  | _ => trivial

theorem after_inv {max : ℕ} {run : List (Event T ι O × State T ι O)}
    (hrun : Along Step (State.initial max) run) :
    After (fun σ => ∃ phase, Inv σ phase) (State.initial max) run := by
  refine hrun.after_of_step ?_ ⟨_, Inv.initial max⟩
  rintro σ e τ ⟨phase, h⟩ hstep
  exact (h.step hstep).1

/-- **Every state of every run is sound, and `kobj_lru_reclaim` evicts the oldest unheld
object.** -/
theorem lru_run {max : ℕ} {run : List (Event T ι O × State T ι O)}
    (hrun : Along Step (State.initial max) run) :
    After Sound (State.initial max) run ∧ Along EvictsOldest (State.initial max) run := by
  refine ⟨(after_inv hrun).mono fun σ ⟨phase, h⟩ => h.sound, ?_⟩
  refine hrun.of_inv (I := fun σ => ∃ phase, Inv σ phase) (C := fun _ _ _ => True) ?_
    ⟨_, Inv.initial max⟩ (hrun.mono fun _ _ _ _ => trivial)
  rintro σ e τ ⟨phase, h⟩ hstep -
  exact h.step hstep

/-- Two threads look for an object of one identifier and share it; after they have put it, room for
another one is made in a cache of one object. -/
theorem evicts_shared_object : ∃ run : List (Event (Fin 2) ℕ ℕ × State (Fin 2) ℕ ℕ),
    run.map Prod.fst = [.get 0 7, .seek 0 1, .get 1 7, .seek 1 1, .markReady 0, .unblock 0, .wake 1,
      .put 0 1, .put 1 1, .get 0 8, .seek 0 2, .take 0, .delete 0, .drop 0, .seek 0 2] ∧
    Along Step (State.initial 1) run ∧ (final (State.initial 1) run).hash = [(8, 2)] ∧
    After Sound (State.initial 1) run ∧ Along EvictsOldest (State.initial 1) run := by
  refine (exists_run (fun (σ : State (Fin 2) ℕ ℕ) e => (σ.exec e).toOption) (fun σ e => e.Ready σ)
    (fun σ => σ.hash = [(8, 2)]) (initial 1) _
    (by decide +kernel)).imp fun run ⟨hevents, hrun, hgoal⟩ => ⟨hevents, ?_⟩
  have hsteps : Along Step (initial 1) run :=
    hrun.mono fun _ _ _ h => ⟨h.1, toOption_eq_some.mp h.2⟩
  exact ⟨hsteps, hgoal, lru_run hsteps⟩

/-- **No use after free**: in every state of every run, an object that a thread holds is allocated,
ready and not being destroyed. -/
theorem held_ready {max : ℕ} {run : List (Event T ι O × State T ι O)}
    (hrun : Along Step (State.initial max) run) :
    After (fun σ => ∀ t o, 0 < (σ.loc t).held o → σ.IsReady o) (State.initial max) run := by
  exact (after_inv hrun).mono fun σ ⟨phase, h⟩ t o ho => h.isReady_iff.mpr ((h.fits t).held o ho)

theorem held_ready_after_init : ∃ σ : State (Fin 2) ℕ ℕ, 0 < (σ.loc 0).held 1 ∧ σ.IsReady 1 := by
  obtain ⟨run, -, hrun, hheld⟩ := exists_run (fun (σ : State (Fin 2) ℕ ℕ) e => (σ.exec e).toOption)
    (fun σ e => e.Ready σ) (fun σ => 0 < (σ.loc 0).held 1) (initial 1)
    [.get 0 7, .seek 0 1, .markReady 0, .unblock 0] (by decide +kernel)
  have hafter := held_ready (hrun.mono fun _ _ _ h => ⟨h.1, toOption_eq_some.mp h.2⟩)
  exact ⟨_, hheld, hafter.final 0 1 hheld⟩

end Sound

end SeaKernel.Lru
