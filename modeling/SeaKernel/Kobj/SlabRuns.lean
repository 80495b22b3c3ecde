import SeaKernel.Kobj.Slab

/-!
# Runs of the slab allocator

The count of a slab and its stack are updated apart, so neither says how many objects are in use.
What ties them together are the threads in between: the count of a slab is the number of its objects
that threads have, plus the threads that have yet to pop from its stack, plus those that have pushed
and have yet to count down. The rest of the objects are on the stack. A thread that is about to pop
is counted, and a count is at most the size of the slab, so the stack is not empty then.

## Main results

* `slab_run`: the allocator is sound in every run
-/

namespace SeaKernel.SlabCache

open Function List Option State

/-- The object a thread is allocating or freeing. -/
def Pc.objs : Pc → List Obj
  | .popped (some o) => [o]
  | .pushing o => [o]
  | _ => []

/-- The objects of a thread: the one it is allocating or freeing, and those it holds. -/
def objs (l : Local) : List Obj := l.pc.objs ++ l.held

/-- How often a thread has the object. -/
def copies (o : Obj) (l : Local) : ℕ := (objs l).count o

/-- The number of objects of the slab that a thread has. -/
def ofSlab (s : ℕ) (l : Local) : ℕ := (objs l).countP (·.1 = s)

/-- Whether a thread is counted by the slab and has none of its objects for it. -/
def pending (s : ℕ) (l : Local) : ℕ := if l.pc = .popping s ∨ l.pc = .pushed s then 1 else 0

theorem copies_le_ofSlab (o : Obj) (l : Local) : copies o l ≤ ofSlab o.1 l :=
  countP_mono_left fun x _ hx => by simp_all

variable {T : Type*} [Fintype T] {max : ℕ} {σ τ : State T} {c : Cache} {t u : T} {o : Obj} {s : ℕ}
  {l : Local}

/-- The counts and the stacks agree with what the threads have. -/
structure Balanced (max : ℕ) (σ : State T) : Prop where
  count : ∀ s, (σ.cache.slab s).count = tally (ofSlab s) σ.loc + tally (pending s) σ.loc
  length : ∀ s < σ.cache.created,
    (σ.cache.slab s).objects.length + tally (ofSlab s) σ.loc = max
  once : ∀ o : Obj, (σ.cache.slab o.1).objects.count o + tally (copies o) σ.loc ≤ 1
  fst_eq : ∀ s, ∀ o ∈ (σ.cache.slab s).objects, o.1 = s
  fresh : ∀ s, σ.cache.created ≤ s → σ.cache.slab s = ⟨0, []⟩
  popped : ∀ t, (σ.loc t).pc ≠ .popped none

theorem balanced_initial : Balanced max (State.initial : State T) := by
  have hzero : ∀ f : Local → ℕ, f ⟨.idle, []⟩ = 0 → tally f (initial : State T).loc = 0 :=
    fun f hf => tally_eq_zero fun _ => hf
  refine ⟨fun s => ?_, fun s hs => ?_, fun o => ?_, fun s o ho => ?_, fun _ _ => rfl, ?_⟩
  · rw [hzero _ rfl, hzero _ (by simp [pending])]
    rfl
  · exact absurd hs (Nat.not_lt_zero s)
  · rw [hzero _ rfl]
    exact Nat.zero_le _
  · exact absurd ho not_mem_nil
  · intro t h
    cases h

theorem Balanced.tally_fresh (h : Balanced max σ) (hs : σ.cache.created ≤ s) :
    tally (ofSlab s) σ.loc = 0 ∧ tally (pending s) σ.loc = 0 := by
  have hcount := h.count s
  rw [h.fresh s hs] at hcount
  exact Nat.add_eq_zero_iff.mp hcount.symm

theorem Balanced.lt_created (h : Balanced max σ)
    (hs : 0 < ofSlab s (σ.loc t) + pending s (σ.loc t)) :
    s < σ.cache.created := by
  by_contra hfresh
  obtain ⟨hof, hpending⟩ := h.tally_fresh (Nat.le_of_not_lt hfresh)
  have := le_tally (ofSlab s) σ.loc t
  have := le_tally (pending s) σ.loc t
  omega

theorem Balanced.count_pos (h : Balanced max σ)
    (hs : 0 < ofSlab s (σ.loc t) + pending s (σ.loc t)) :
    0 < (σ.cache.slab s).count := by
  rw [h.count s]
  have := le_tally (ofSlab s) σ.loc t
  have := le_tally (pending s) σ.loc t
  omega

variable [DecidableEq T]

/-- **One thread moves**, and the cache changes by what it has more or less. -/
theorem Balanced.move (h : Balanced max σ) (hcreated : c.created = σ.cache.created)
    (hcount : ∀ s, (c.slab s).count + ofSlab s (σ.loc t) + pending s (σ.loc t) =
      (σ.cache.slab s).count + ofSlab s l + pending s l)
    (hlength : ∀ s, (c.slab s).objects.length + ofSlab s l =
      (σ.cache.slab s).objects.length + ofSlab s (σ.loc t))
    (honce : ∀ o : Obj, (c.slab o.1).objects.count o + copies o l =
      (σ.cache.slab o.1).objects.count o + copies o (σ.loc t))
    (hfst : ∀ s, ∀ o ∈ (c.slab s).objects, o.1 = s)
    (hfresh : ∀ s, σ.cache.created ≤ s → c.slab s = σ.cache.slab s)
    (hpopped : l.pc ≠ .popped none) : Balanced max ({ σ with cache := c }.setLoc t l) := by
  have hmoved : ∀ f : Local → ℕ, tally f ({ σ with cache := c }.setLoc t l).loc + f (σ.loc t) =
      tally f σ.loc + f l := fun f => tally_update f σ.loc t l
  refine ⟨fun s => ?_, fun s hs => ?_, fun o => ?_, hfst, fun s hs => ?_, fun u => ?_⟩
  · have := h.count s
    have := hcount s
    have := hmoved (ofSlab s)
    have := hmoved (pending s)
    change (c.slab s).count = _
    omega
  · have := h.length s (hcreated ▸ hs)
    have := hlength s
    have := hmoved (ofSlab s)
    change (c.slab s).objects.length + _ = _
    omega
  · have := h.once o
    have := honce o
    have := hmoved (copies o)
    change (c.slab o.1).objects.count o + _ ≤ _
    omega
  · have hs' : σ.cache.created ≤ s := hcreated ▸ hs
    exact (hfresh s hs').trans (h.fresh s hs')
  · change (update σ.loc t l u).pc ≠ _
    by_cases heq : u = t
    · subst heq
      rwa [update_self]
    · rw [update_of_ne heq]
      exact h.popped u

/-! ## The steps -/

omit [DecidableEq T] in
theorem Balanced.addSlab (h : Balanced max σ) :
    Balanced max { σ with cache := σ.cache.addSlab max } := by
  have hold : ∀ s, s ≠ σ.cache.created → (σ.cache.addSlab max).slab s = σ.cache.slab s :=
    fun s hs => update_of_ne hs _ _
  have hnew : (σ.cache.addSlab max).slab σ.cache.created =
      ⟨0, (range max).reverse.map fun i => (σ.cache.created, i)⟩ := update_self ..
  have hcreated : (σ.cache.addSlab max).created = σ.cache.created + 1 := rfl
  obtain ⟨hof, hpending⟩ := h.tally_fresh le_rfl
  refine ⟨fun s => ?_, fun s hs => ?_, fun o => ?_, fun s o ho => ?_, fun s hs => ?_, h.popped⟩
  · by_cases heq : s = σ.cache.created
    · rw [heq, hof, hpending]
      simp [hnew]
    · simpa [hold s heq] using h.count s
  · by_cases heq : s = σ.cache.created
    · simp [heq, hof, hnew]
    · simpa [hold s heq] using h.length s (by dsimp only at hs; omega)
  · by_cases heq : o.1 = σ.cache.created
    · have hle : tally (copies o) σ.loc ≤ tally (ofSlab o.1) σ.loc :=
        tally_mono (copies_le_ofSlab o)
      have hnodup : ((range max).reverse.map fun i => (σ.cache.created, i)).Nodup :=
        (nodup_reverse.mpr nodup_range).map fun i j hij => (Prod.mk.inj hij).2
      have hcount := nodup_iff_count_le_one.mp hnodup o
      rw [heq, hof] at hle
      dsimp only
      rw [heq, hnew]
      dsimp only
      omega
    · simpa [hold o.1 heq] using h.once o
  · by_cases heq : s = σ.cache.created
    · dsimp only at ho
      rw [heq, hnew] at ho
      obtain ⟨i, -, rfl⟩ := mem_map.mp ho
      exact heq.symm
    · dsimp only at ho
      rw [hold s heq] at ho
      exact h.fst_eq s o ho
  · dsimp only at hs ⊢
    rw [hold s (by omega)]
    exact h.fresh s (by omega)

/-- The lists are sorted, and the counts balanced. -/
structure Sound (max : ℕ) (σ : State T) : Prop where
  sorted : Sorted max σ.cache
  balanced : Balanced max σ

/-- The step passes its assertions and keeps the cache sound. -/
abbrev Keeps (max : ℕ) (σ : State T) (e : Event T) : Prop :=
  ∃ τ, σ.exec max e = some τ ∧ Sound max τ

section

variable (h : Sound max σ)

include h

theorem Sound.allocate (hmax : 2 ≤ max) (ht : (σ.loc t).pc = .idle) :
    Keeps max σ (.allocate t) := by
  obtain ⟨c', s, base, hallocate, hsorted, hbase, hs, hcreated, hslab⟩ := h.sorted.allocate hmax
  have hbalanced : Balanced max { σ with cache := base } := by
    rcases hbase with rfl | rfl
    · exact h.balanced
    · exact h.balanced.addSlab
  refine ⟨_, by rw [exec, hallocate, map_some], hsorted, ?_⟩
  refine hbalanced.move (t := t) hcreated (fun s' => ?_) (fun s' => ?_) (fun o => ?_)
    (fun s' o ho => ?_) (fun s' hs' => ?_) (by simp)
  · simp only [hslab, count_setCount]
    by_cases heq : s' = s <;> simp [heq, ofSlab, objs, Pc.objs, pending, ht, eq_comm] <;> omega
  · simp [hslab, ofSlab, objs, Pc.objs, ht]
  · simp [hslab, copies, objs, Pc.objs, ht]
  · rw [hslab, objects_setCount] at ho
    exact hbalanced.fst_eq s' o ho
  · rw [hslab]
    exact update_of_ne (by dsimp only at hs'; omega) _ _

theorem Sound.pop (ht : (σ.loc t).pc = .popping s) : Keeps max σ (.pop t) := by
  have hpending : 0 < pending s (σ.loc t) := by simp [pending, ht]
  have hs : s < σ.cache.created := h.balanced.lt_created (t := t) (by omega)
  have hnonempty : (σ.cache.slab s).objects ≠ [] := by
    intro hnil
    have hlength := h.balanced.length s hs
    have hcount := h.balanced.count s
    have hle := h.sorted.count_le s hs
    have := le_tally (pending s) σ.loc t
    rw [hnil, length_nil] at hlength
    omega
  obtain ⟨o, objects, ho⟩ := exists_cons_of_ne_nil hnonempty
  have hfst : o.1 = s := h.balanced.fst_eq s o (by simp [ho])
  have hexec : σ.exec max (.pop t) =
      some ({ σ with cache := σ.cache.setObjects s objects }.goto t (.popped (some o))) := by
    simp only [exec, ht, ho]
  refine ⟨_, hexec, h.sorted.congr rfl rfl rfl rfl rfl rfl fun s' => count_setObjects .., ?_⟩
  refine h.balanced.move (t := t) rfl (fun s' => ?_) (fun s' => ?_) (fun o' => ?_)
    (fun s' o' ho' => ?_) (fun s' hs' => update_of_ne (by omega) _ _) (by simp)
  · rw [count_setObjects]
    rcases eq_or_ne s' s with rfl | hne
    · simp [ofSlab, objs, Pc.objs, pending, ht, hfst]
      omega
    · simp [ofSlab, objs, Pc.objs, pending, ht, hfst, hne.symm]
  · rcases eq_or_ne s' s with rfl | hne
    · simp [ofSlab, objs, Pc.objs, ht, hfst, ho]
      omega
    · simp [ofSlab, objs, Pc.objs, ht, hfst, hne, hne.symm]
  · rcases eq_or_ne o'.1 s with heq | hne
    · simp [copies, objs, Pc.objs, ht, ho, heq, count_cons]
      omega
    · have hne' : o ≠ o' := fun heq => hne (heq ▸ hfst)
      simp [copies, objs, Pc.objs, ht, hne, hne']
  · rw [objects_setObjects] at ho'
    split at ho'
    case isTrue heq => exact heq ▸ h.balanced.fst_eq s o' (ho ▸ mem_cons_of_mem o ho')
    case isFalse => exact h.balanced.fst_eq s' o' ho'

theorem Sound.finish (ht : (σ.loc t).pc = .popped (some o)) : Keeps max σ (.finish t) := by
  have hexec : σ.exec max (.finish t) = some ({ σ with cache :=
        { σ.cache with allocatedObjects := σ.cache.allocatedObjects + 1 } }.setLoc t
        ⟨.idle, o :: (σ.loc t).held⟩) := by
    simp only [exec, ht]
  refine ⟨_, hexec, h.sorted.congr rfl rfl rfl rfl rfl rfl fun _ => rfl, ?_⟩
  refine h.balanced.move (t := t) rfl (fun s => ?_) (fun s => ?_) (fun o' => ?_)
    h.balanced.fst_eq (fun _ _ => rfl) (by simp)
  · simp [ofSlab, objs, Pc.objs, pending, ht]
  · simp [ofSlab, objs, Pc.objs, ht]
  · simp [copies, objs, Pc.objs, ht]

theorem Sound.free (ht : (σ.loc t).pc = .idle) (ho : o ∈ (σ.loc t).held) :
    Keeps max σ (.free t o) := by
  have hperm : (objs ⟨.pushing o, (σ.loc t).held.erase o⟩).Perm (objs (σ.loc t)) := by
    simpa [objs, Pc.objs, ht] using (perm_cons_erase ho).symm
  refine ⟨_, rfl, h.sorted.congr rfl rfl rfl rfl rfl rfl fun _ => rfl, ?_⟩
  refine h.balanced.move (t := t) rfl (fun s => ?_) (fun s => ?_) (fun o' => ?_)
    h.balanced.fst_eq (fun _ _ => rfl) (by simp)
  · simp [ofSlab, pending, ht, hperm.countP_eq]
  · rw [ofSlab, ofSlab, hperm.countP_eq]
  · rw [copies, copies, hperm.count_eq]

theorem Sound.push (ht : (σ.loc t).pc = .pushing o) : Keeps max σ (.push t) := by
  have hof : 0 < ofSlab o.1 (σ.loc t) := by simp [ofSlab, objs, Pc.objs, ht]
  have hs : o.1 < σ.cache.created := h.balanced.lt_created (t := t) (by omega)
  have hexec : σ.exec max (.push t) =
      some ({ σ with cache := σ.cache.setObjects o.1 (o :: (σ.cache.slab o.1).objects) }.goto t
        (.pushed o.1)) := by
    simp only [exec, ht]
  refine ⟨_, hexec, h.sorted.congr rfl rfl rfl rfl rfl rfl fun s' => count_setObjects .., ?_⟩
  refine h.balanced.move (t := t) rfl (fun s' => ?_) (fun s' => ?_) (fun o' => ?_)
    (fun s' o' ho' => ?_) (fun s' hs' => update_of_ne (by omega) _ _) (by simp)
  · rw [count_setObjects]
    rcases eq_or_ne s' o.1 with rfl | hne
    · simp [ofSlab, objs, Pc.objs, pending, ht]
      omega
    · simp [ofSlab, objs, Pc.objs, pending, ht, hne.symm]
  · rcases eq_or_ne s' o.1 with rfl | hne
    · simp [ofSlab, objs, Pc.objs, ht]
      omega
    · simp [ofSlab, objs, Pc.objs, ht, hne, hne.symm]
  · rcases eq_or_ne o'.1 o.1 with heq | hne
    · simp [copies, objs, Pc.objs, ht, heq, count_cons]
      omega
    · have hne' : o ≠ o' := fun heq => hne (heq ▸ rfl)
      simp [copies, objs, Pc.objs, ht, hne, hne']
  · rw [objects_setObjects] at ho'
    split at ho'
    case isTrue heq =>
      rcases mem_cons.mp ho' with rfl | ho'
      · exact heq.symm
      · exact heq ▸ h.balanced.fst_eq o.1 o' ho'
    case isFalse => exact h.balanced.fst_eq s' o' ho'

theorem Sound.deallocate (hmax : 2 ≤ max) (ht : (σ.loc t).pc = .pushed s) :
    Keeps max σ (.deallocate t) := by
  have hpending : 0 < ofSlab s (σ.loc t) + pending s (σ.loc t) := by simp [pending, ht]
  have hs : s < σ.cache.created := h.balanced.lt_created hpending
  have hpos : 0 < (σ.cache.slab s).count := h.balanced.count_pos hpending
  obtain ⟨c', hdeallocate, hsorted, hcreated, hslab⟩ := h.sorted.deallocate hmax hs hpos
  have hexec : σ.exec max (.deallocate t) = some ({ σ with cache := c' }.goto t .idle) := by
    simp only [exec, ht, hdeallocate, map_some]
  refine ⟨_, hexec, hsorted, ?_⟩
  refine h.balanced.move (t := t) hcreated (fun s' => ?_) (fun s' => ?_) (fun o => ?_)
    (fun s' o ho => ?_) (fun s' hs' => ?_) (by simp)
  · rw [hslab, count_setCount]
    rcases eq_or_ne s' s with rfl | hne
    · simp [ofSlab, objs, Pc.objs, pending, ht]
      omega
    · simp [ofSlab, objs, Pc.objs, pending, ht, hne, hne.symm]
  · simp [hslab, ofSlab, objs, Pc.objs, ht]
  · simp [hslab, copies, objs, Pc.objs, ht]
  · rw [hslab, objects_setCount] at ho
    exact h.balanced.fst_eq s' o ho
  · rw [hslab]
    exact update_of_ne (by omega) _ _

theorem Sound.give (htu : t ≠ u) (ho : o ∈ (σ.loc t).held) : Keeps max σ (.give t u o) := by
  have hexec : σ.exec max (.give t u o) = some ⟨σ.cache, update (update σ.loc t
      ⟨(σ.loc t).pc, (σ.loc t).held.erase o⟩) u ⟨(σ.loc u).pc, o :: (σ.loc u).held⟩⟩ := by
    simp only [exec, setLoc, update_of_ne htu.symm]
  refine ⟨_, hexec, h.sorted, ?_⟩
  -- what the first thread has less, the second has more
  have hlost : ∀ p : Obj → Bool, (objs (σ.loc t)).countP p =
      (objs ⟨(σ.loc t).pc, (σ.loc t).held.erase o⟩).countP p + [o].countP p := by
    intro p
    rw [objs, objs, countP_append, countP_append,
      (perm_cons_erase ho).countP_eq p, countP_cons, countP_singleton]
    exact (Nat.add_assoc ..).symm
  have hgained : ∀ p : Obj → Bool, (objs ⟨(σ.loc u).pc, o :: (σ.loc u).held⟩).countP p =
      (objs (σ.loc u)).countP p + [o].countP p := by
    intro p
    rw [objs, objs, countP_append, countP_append, countP_cons, countP_singleton]
    exact (Nat.add_assoc ..).symm
  have hpending : ∀ s, tally (pending s) (update (update σ.loc t
      ⟨(σ.loc t).pc, (σ.loc t).held.erase o⟩) u ⟨(σ.loc u).pc, o :: (σ.loc u).held⟩) =
      tally (pending s) σ.loc := fun s => tally_move (d := 0) htu rfl rfl
  refine ⟨fun s => ?_, fun s hs => ?_, fun o' => ?_, h.balanced.fst_eq, h.balanced.fresh,
    fun v => ?_⟩
  · rw [tally_move htu (hlost _) (hgained _), hpending]
    exact h.balanced.count s
  · rw [tally_move htu (hlost _) (hgained _)]
    exact h.balanced.length s hs
  · rw [tally_move htu (hlost _) (hgained _)]
    exact h.balanced.once o'
  · rcases eq_or_ne v u with rfl | hu
    · simpa using h.balanced.popped v
    · rcases eq_or_ne v t with rfl | ht
      · simpa [hu] using h.balanced.popped v
      · simpa [hu, ht] using h.balanced.popped v

/-- **Every step of a thread that is ready for it succeeds, and keeps the cache sound.** -/
theorem Sound.exec (hmax : 2 ≤ max) {e : Event T} (he : e.Ready σ) : Keeps max σ e := by
  cases e with
  | allocate t => exact h.allocate hmax he
  | pop t =>
    obtain ⟨s, ht⟩ := he
    exact h.pop ht
  | finish t =>
    obtain ⟨o, ht⟩ := he
    cases o with
    | none => exact absurd ht (h.balanced.popped t)
    | some o => exact h.finish ht
  | free t o => exact h.free he.1 he.2
  | push t =>
    obtain ⟨o, ht⟩ := he
    exact h.push ht
  | deallocate t =>
    obtain ⟨s, ht⟩ := he
    exact h.deallocate hmax ht
  | give t u o => exact h.give he.1 he.2

end

/-! ## The runs -/

/-- A step of a thread that is ready for it. -/
def Step (max : ℕ) (σ : State T) (e : Event T) (τ : State T) : Prop :=
  e.Ready σ ∧ σ.exec max e = some τ

/-- No object is with two threads, or with one thread twice. -/
def Exclusive (σ : State T) : Prop :=
  (∀ t, (objs (σ.loc t)).Nodup) ∧
    ∀ t u o, o ∈ objs (σ.loc t) → o ∈ objs (σ.loc u) → t = u

theorem Balanced.exclusive (h : Balanced max σ) : Exclusive σ := by
  have hle : ∀ o, tally (copies o) σ.loc ≤ 1 := fun o => by
    have := h.once o
    omega
  constructor
  · intro t
    exact nodup_iff_count_le_one.mpr fun o => (le_tally (copies o) σ.loc t).trans (hle o)
  · intro t u o ht hu
    exact (not_shared_of_tally_le_one (hle o) (count_pos_iff.mpr ht) (count_pos_iff.mpr hu)).1

/-- **The slab allocator is sound**: in every state of every run, each slab is on the list its count
calls for and the totals are right, no pop has come back empty, no object is with two threads, and
every step a thread can take next passes its assertions. -/
theorem slab_run {slabstructSize size : ℕ} (hmax : 2 ≤ slabMax slabstructSize size)
    {run : List (Event T × State T)}
    (hrun : Along (Step (slabMax slabstructSize size)) State.initial run) :
    After (fun σ => Sorted (slabMax slabstructSize size) σ.cache ∧
      (∀ t, (σ.loc t).pc ≠ .popped none) ∧ Exclusive σ ∧
      ∀ e : Event T, e.Ready σ → (σ.exec (slabMax slabstructSize size) e).isSome)
      State.initial run := by
  have hinitial : Sound (slabMax slabstructSize size) (initial : State T) :=
    ⟨sorted_initial, balanced_initial⟩
  have hstep : ∀ σ e τ, Sound (slabMax slabstructSize size) σ →
      Step (slabMax slabstructSize size) σ e τ →
        Sound (slabMax slabstructSize size) (τ : State T) := by
    intro σ e τ h he
    obtain ⟨τ', hexec, hτ⟩ := h.exec hmax he.1
    obtain rfl := some.inj (hexec.symm.trans he.2)
    exact hτ
  refine (hrun.after_of_step hstep hinitial).mono fun σ h => ?_
  refine ⟨h.sorted, h.balanced.popped, h.balanced.exclusive, fun e he => ?_⟩
  obtain ⟨τ, hexec, -⟩ := h.exec hmax he
  exact isSome_of_eq_some hexec

/-- Two threads and slabs of two objects; the second thread pops between the push of the first one
and its count, and gets the object that the first one has freed. -/
theorem slab_run_two_threads : ∃ run : List (Event (Fin 2) × State (Fin 2)),
    Along (Step (slabMax 80 0x10000)) State.initial run ∧
    ((final State.initial run).loc 1).held = [(0, 1)] ∧
    After (fun σ => Sorted (slabMax 80 0x10000) σ.cache ∧ (∀ t, (σ.loc t).pc ≠ .popped none) ∧
      Exclusive σ ∧ ∀ e : Event (Fin 2), e.Ready σ → (σ.exec (slabMax 80 0x10000) e).isSome)
      State.initial run := by
  obtain ⟨run, -, hrun, hheld⟩ := exists_run (exec (slabMax 80 0x10000))
    (fun σ e => e.Ready σ) (fun σ => (σ.loc 1).held = [(0, 1)]) (initial : State (Fin 2))
    [.allocate 0, .pop 0, .finish 0, .free 0 (0, 1), .push 0, .allocate 1, .pop 1, .deallocate 0,
      .finish 1] (by decide +kernel)
  exact ⟨run, hrun, hheld, slab_run (by decide) hrun⟩

end SeaKernel.SlabCache
