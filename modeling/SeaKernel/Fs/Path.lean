import Mathlib.Data.List.DropRight
import SeaKernel.Fs.Vfs

/-!
# Paths

`fs_path_resolve` copies the path, cuts off slashes at its end and goes from one segment to the
next; empty segments are skipped. A symbolic link on the way is resolved by a nested call, at most
64 deep. The last segment may be created, if its parent does not have it.

The callers that need the parent of the last segment cut the path at its last slash themselves, and
resolve what is before it.

## Main results

* `strrchrm_eq_some`, `strrchrm_eq_none`: where the last slash is
* `pathResolve_eq_cut`: a path is resolved by cutting it at its last slash
-/

namespace SeaKernel.Vfs

open List Option

/-! ## Strings -/

/-- The loop of `strrchrm`, from an index down to the first one. -/
def strrchrmFrom (str : Name) (v : Char) : ℕ → Option ℕ
  | 0 => if str[0]? = some v then some 0 else none
  | s + 1 => if str[s + 1]? = some v then some (s + 1) else strrchrmFrom str v s

/-- `strrchrm`: where the character is last, in a string that is not empty. -/
def strrchrm (str : Name) (v : Char) : Option ℕ := strrchrmFrom str v (str.length - 1)

/-- The loop at the start of `fs_path_resolve`, which keeps the first character. For an empty path
it looks at the byte before the buffer. -/
def stripSlashes : Name → Name
  | [] => []
  | c :: path => c :: path.rdropWhile (· = '/')

/-! ## The resolver -/

/-- `PATH_CREATE` and `PATH_NOFOLLOW` -/
structure Flags where
  create : Bool
  nofollow : Bool
  deriving DecidableEq

/-- What is created is not followed. -/
def Flags.effective (flags : Flags) : Flags := ⟨flags.create, flags.nofollow || flags.create⟩

/-- What `fs_path_resolve` returns: the entry, if there is one, the inode and `PATH_DID_CREATE`. -/
structure Found where
  dir : Option Dirent
  node : InodeId
  created : Bool
  deriving DecidableEq

namespace State

/-- From an entry to its inode, or to what it links to. A nested call of `fs_path_resolve` starts at
the directory of the link. -/
def enter (σ : State) (nested : Name → InodeId → Except Errno Found) (node : InodeId) (dir : Dirent)
    (follow created : Bool) : Except Errno Found :=
  match σ.direntGetInode dir with
  | none => .error .eio
  | some next =>
    if σ.isLnk next && follow then
      match nested (σ.readlink next) node with
      | .error e => .error e
      | .ok found => .ok ⟨found.dir, found.node, created⟩
    else .ok ⟨some dir, next, created⟩

/-- The loop of `fs_path_resolve` over the segments. -/
def walk (σ : State) (nested : Name → InodeId → Except Errno Found) (flags : Flags) (mode : ℕ) :
    Found → List Name → State × Except Errno Found
  | found, [] => (σ, .ok found)
  | found, name :: rest =>
    if name = [] then σ.walk nested flags mode found rest
    else if (σ.inode found.node).any (·.checkPerm = false) then (σ, .error .eacces)
    else
      match σ.inodeLookupDirent found.node name with
      | .ok dir =>
        match σ.enter nested found.node dir (!rest.isEmpty || !flags.nofollow) found.created with
        | .error e => (σ, .error e)
        | .ok next => σ.walk nested flags mode next rest
      | .error e =>
        if rest.isEmpty && flags.create then
          let created := σ.createLast found.node name mode
          match created.2 with
          | .error e => (created.1, .error e)
          | .ok dir => (created.1, created.1.enter nested found.node dir (!flags.nofollow) true)
        else (σ, .error e)

/-- `fs_path_resolve`, with the way to resolve a symbolic link. -/
def resolveWith (σ : State) (nested : Name → InodeId → Except Errno Found) (path : Name)
    (start : InodeId) (flags : Flags) (mode : ℕ) : State × Except Errno Found :=
  if path.length > 255 then (σ, .error .enametoolong)
  else
    match stripSlashes path with
    | ['/'] => (σ, .ok ⟨some ⟨σ.root, ['/'], σ.root⟩, σ.root, false⟩)
    | '/' :: path => σ.walk nested flags.effective mode ⟨none, σ.root, false⟩ (path.splitOn '/')
    | path => σ.walk nested flags.effective mode ⟨none, start, false⟩ (path.splitOn '/')

/-- A symbolic link is resolved without flags, and then nothing is created. The number says how much
deeper calls may nest. -/
def resolveLink (σ : State) : ℕ → Name → InodeId → Except Errno Found
  | 0, _, _ => .error .eloop
  | depth + 1, path, node => (σ.resolveWith (σ.resolveLink depth) path node ⟨false, false⟩ 0).2

/-- `fs_path_resolve` -/
def pathResolve (σ : State) (path : Name) (start : InodeId) (flags : Flags) (mode : ℕ) :
    State × Except Errno Found :=
  σ.resolveWith (σ.resolveLink 64) path start flags mode

/-- The way through segments all of which are followed, without flags. -/
def descend (σ : State) (nested : Name → InodeId → Except Errno Found) :
    Found → List Name → Except Errno Found
  | found, [] => .ok found
  | found, name :: rest =>
    if name = [] then σ.descend nested found rest
    else
      match σ.inodeLookupDirent found.node name with
      | .error e => .error e
      | .ok dir =>
        match σ.enter nested found.node dir true found.created with
        | .error e => .error e
        | .ok next => σ.descend nested next rest

/-- The last segment, from the inode that the others lead to. -/
def last (σ : State) (nested : Name → InodeId → Except Errno Found) (flags : Flags) (mode : ℕ)
    (node : InodeId) (name : Name) : State × Except Errno Found :=
  match σ.inodeLookupDirent node name with
  | .ok dir => (σ, σ.enter nested node dir (!flags.nofollow) false)
  | .error e =>
    if flags.create then
      let created := σ.createLast node name mode
      match created.2 with
      | .error e => (created.1, .error e)
      | .ok dir => (created.1, created.1.enter nested node dir (!flags.nofollow) true)
    else (σ, .error e)

end State

/-- What comes after the last slash. -/
def cutName (path : Name) : Name :=
  match strrchrm path '/' with
  | some sep => path.drop (sep + 1)
  | none => path

/-- Where the part before the last slash leads. -/
def State.cut (σ : State) (start : InodeId) (path : Name) : Except Errno InodeId :=
  match strrchrm path '/' with
  | some sep => (σ.pathResolve (path.take sep) start ⟨false, false⟩ 0).2.map Found.node
  | none => .ok start

/-! ## The last slash -/

section Strings

variable {str : Name} {v : Char} {i n : ℕ}

theorem strrchrmFrom_eq_some (h : strrchrmFrom str v n = some i) :
    i ≤ n ∧ str[i]? = some v ∧ ∀ j, i < j → j ≤ n → str[j]? ≠ some v := by
  induction n with
  | zero =>
    unfold strrchrmFrom at h
    obtain ⟨hv, rfl⟩ := ite_some_none_eq_some.mp h
    exact ⟨le_rfl, hv, by omega⟩
  | succ n ih =>
    unfold strrchrmFrom at h
    split at h
    · next hv =>
      obtain rfl := some.inj h
      exact ⟨le_rfl, hv, by omega⟩
    · next hv =>
      obtain ⟨hle, hi, hafter⟩ := ih h
      refine ⟨by omega, hi, fun j hj hjn => ?_⟩
      rcases Nat.lt_or_ge n j with hlt | hge
      · obtain rfl : j = n + 1 := by omega
        exact hv
      · exact hafter j hj hge

theorem strrchrmFrom_eq_none (h : strrchrmFrom str v n = none) : ∀ j ≤ n, str[j]? ≠ some v := by
  induction n with
  | zero =>
    unfold strrchrmFrom at h
    split at h
    · cases h
    · next hv =>
      intro j hj
      obtain rfl : j = 0 := by omega
      exact hv
  | succ n ih =>
    unfold strrchrmFrom at h
    split at h
    · cases h
    · next hv =>
      intro j hj
      rcases Nat.lt_or_ge n j with hlt | hge
      · obtain rfl : j = n + 1 := by omega
        exact hv
      · exact ih h j hge

/-- **The character is at the place that is found, and not after it.** -/
theorem strrchrm_eq_some (h : strrchrm str v = some i) :
    str = str.take i ++ v :: str.drop (i + 1) ∧ v ∉ str.drop (i + 1) := by
  obtain ⟨-, hi, hafter⟩ := strrchrmFrom_eq_some h
  obtain ⟨hlen, hget⟩ := List.getElem?_eq_some_iff.mp hi
  constructor
  · rw [← hget, List.getElem_cons_drop, List.take_append_drop]
  · intro hmem
    obtain ⟨j, hj⟩ := List.mem_iff_getElem?.mp hmem
    rw [List.getElem?_drop] at hj
    obtain ⟨hjlen, -⟩ := List.getElem?_eq_some_iff.mp hj
    exact hafter (i + 1 + j) (by omega) (by omega) hj

theorem strrchrm_eq_none (h : strrchrm str v = none) : v ∉ str := by
  intro hmem
  obtain ⟨j, hj⟩ := List.mem_iff_getElem?.mp hmem
  obtain ⟨hjlen, -⟩ := List.getElem?_eq_some_iff.mp hj
  exact strrchrmFrom_eq_none h j (by omega) hj

end Strings

/-! ## The last segment -/

namespace State

section Walk

variable {σ : State} {nested : Name → InodeId → Except Errno Found} {flags : Flags} {mode : ℕ}
  {found : Found} {segments : List Name} {name path q : Name} {start : InodeId}

theorem checkPerm_any (o : Option Inode) : o.any (·.checkPerm = false) = false := by
  cases o <;> rfl

theorem walk_eq_descend :
    σ.walk nested ⟨false, false⟩ mode found segments = (σ, σ.descend nested found segments) := by
  induction segments generalizing found with
  | nil => rfl
  | cons name rest ih =>
    rw [walk, descend, checkPerm_any]
    simp only [Bool.not_false, Bool.or_true, Bool.and_false, Bool.false_eq_true, if_false]
    split
    · exact ih
    · cases σ.inodeLookupDirent found.node name with
      | error e => rfl
      | ok dir =>
        dsimp only
        cases σ.enter nested found.node dir true found.created with
        | error e => rfl
        | ok next => exact ih

theorem walk_append : σ.walk nested flags mode found (segments ++ [name]) =
      match σ.descend nested found segments with
      | .error e => (σ, .error e)
      | .ok next => σ.walk nested flags mode next [name] := by
  induction segments generalizing found with
  | nil => rfl
  | cons segment rest ih =>
    rw [cons_append, walk, descend, checkPerm_any]
    have hmiddle : (rest ++ [name]).isEmpty = false := by simp
    simp only [hmiddle, Bool.not_false, Bool.true_or, Bool.false_and, Bool.false_eq_true, if_false]
    split
    · exact ih
    · cases σ.inodeLookupDirent found.node segment with
      | error e => rfl
      | ok dir =>
        dsimp only
        cases σ.enter nested found.node dir true found.created with
        | error e => rfl
        | ok next => exact ih

theorem descend_append_nil :
    σ.descend nested found (segments ++ [[]]) = σ.descend nested found segments := by
  induction segments generalizing found with
  | nil => rfl
  | cons segment rest ih =>
    rw [cons_append, descend, descend]
    split
    · exact ih
    · cases σ.inodeLookupDirent found.node segment with
      | error e => rfl
      | ok dir =>
        dsimp only
        cases σ.enter nested found.node dir true found.created with
        | error e => rfl
        | ok next => exact ih

theorem descend_rdropWhile : σ.descend nested found ((path.rdropWhile (· = '/')).splitOn '/') =
    σ.descend nested found (path.splitOn '/') := by
  induction path using reverseRecOn with
  | nil => rfl
  | append_singleton path c ih =>
    by_cases hc : c = '/'
    · subst hc
      rw [rdropWhile_concat_pos _ _ _ (by simp), ih, splitOn_append_cons_self,
        splitOn_nil, descend_append_nil]
    · rw [rdropWhile_concat_neg _ _ _ (by simpa using hc)]

theorem descend_created {next : Found} (hfound : found.created = false)
    (h : σ.descend nested found segments = .ok next) : next.created = false := by
  induction segments generalizing found with
  | nil =>
    obtain rfl := Except.ok.inj h
    exact hfound
  | cons segment rest ih =>
    rw [descend] at h
    split at h
    · exact ih hfound h
    · split at h
      · cases h
      · split at h
        · cases h
        · next next hnext =>
          refine ih ?_ h
          unfold enter at hnext
          split at hnext
          · cases hnext
          · split at hnext
            · split at hnext
              · cases hnext
              · obtain rfl := Except.ok.inj hnext
                exact hfound
            · obtain rfl := Except.ok.inj hnext
              exact hfound

theorem walk_singleton (hname : name ≠ []) (hfound : found.created = false) :
    σ.walk nested flags mode found [name] = σ.last nested flags mode found.node name := by
  rw [walk, last, checkPerm_any, if_neg hname, hfound]
  simp only [isEmpty_nil, Bool.not_true, Bool.false_or, Bool.true_and, Bool.false_eq_true,
    if_false]
  cases σ.inodeLookupDirent found.node name with
  | error e => rfl
  | ok dir =>
    dsimp only
    cases σ.enter nested found.node dir (!flags.nofollow) false <;> rfl

/-- **The segments before the last one lead to its parent.** -/
theorem walk_concat (hname : name ≠ []) (hfound : found.created = false) :
    σ.walk nested flags mode found (segments ++ [name]) =
      match σ.descend nested found segments with
      | .error e => (σ, .error e)
      | .ok next => σ.last nested flags mode next.node name := by
  rw [walk_append]
  cases hnext : σ.descend nested found segments with
  | error e => rfl
  | ok next => exact walk_singleton hname (descend_created hfound hnext)

end Walk

/-! ## Cutting a path -/

section Cut

variable {σ : State} {nested : Name → InodeId → Except Errno Found} {flags : Flags} {mode : ℕ}
  {name path : Name} {c : Char} {start : InodeId}

theorem rdropWhile_cons_of_ne (hc : c ≠ '/') :
    (c :: path).rdropWhile (· = '/') = c :: path.rdropWhile (· = '/') := by
  induction path using reverseRecOn with
  | nil => simp [rdropWhile_singleton, hc]
  | append_singleton path d ih =>
    rw [← cons_append]
    by_cases hd : d = '/'
    · rw [rdropWhile_concat_pos _ _ _ (by simpa using hd), ih,
        rdropWhile_concat_pos _ _ _ (by simpa using hd)]
    · rw [rdropWhile_concat_neg _ _ _ (by simpa using hd),
        rdropWhile_concat_neg _ _ _ (by simpa using hd)]
      rfl

theorem stripSlashes_eq_self (hlast : ∀ hne : path ≠ [], path.getLast hne ≠ '/') :
    stripSlashes path = path := by
  cases path with
  | nil => rfl
  | cons c path =>
    rw [stripSlashes, rdropWhile_eq_self_iff.mpr]
    intro hne
    have := hlast (cons_ne_nil c path)
    rw [getLast_cons hne] at this
    simpa using this

theorem stripSlashes_append (hslash : '/' ∉ name) (hname : name ≠ []) (path : Name) :
    stripSlashes (path ++ name) = path ++ name := by
  refine stripSlashes_eq_self fun hne heq => hslash ?_
  rw [getLast_append_of_ne_nil hne hname] at heq
  exact heq ▸ getLast_mem hname

section

variable (hlen : path.length ≤ 255)

include hlen

theorem resolveWith_of_ne (hc : ∀ q, stripSlashes path ≠ '/' :: q) :
    σ.resolveWith nested path start flags mode = σ.walk nested flags.effective mode
      ⟨none, start, false⟩ ((stripSlashes path).splitOn '/') := by
  unfold resolveWith
  rw [if_neg (by omega)]
  split
  · next heq => exact absurd heq (hc [])
  · next q _ heq => exact absurd heq (hc q)
  · rfl

theorem resolveWith_of_root {q : Name} (hstrip : stripSlashes path = '/' :: q) (hq : q ≠ []) :
    σ.resolveWith nested path start flags mode =
      σ.walk nested flags.effective mode ⟨none, σ.root, false⟩ (q.splitOn '/') := by
  unfold resolveWith
  rw [if_neg (by omega), hstrip]
  split
  · next heq => exact absurd (cons.inj heq).2 hq
  · next heq =>
    obtain rfl := (cons.inj heq).2
    rfl
  · next hne => exact absurd rfl (hne q)

theorem resolveWith_slash (hstrip : stripSlashes path = ['/']) :
    σ.resolveWith nested path start flags mode =
      (σ, .ok ⟨some ⟨σ.root, ['/'], σ.root⟩, σ.root, false⟩) := by
  unfold resolveWith
  rw [if_neg (by omega), hstrip]
  rfl

end

theorem resolveWith_name (hslash : '/' ∉ name) (hname : name ≠ []) (hlen : name.length ≤ 255) :
    σ.resolveWith nested name start flags mode = σ.last nested flags.effective mode start name := by
  have hstrip : stripSlashes name = name := stripSlashes_append hslash hname []
  rw [resolveWith_of_ne hlen, hstrip, splitOn_eq_singleton hslash, walk_singleton hname rfl]
  intro q hq
  rw [hstrip] at hq
  exact hslash (hq ▸ mem_cons_self)

theorem resolveWith_slash_name (hslash : '/' ∉ name) (hname : name ≠ [])
    (hlen : ('/' :: name).length ≤ 255) :
    σ.resolveWith nested ('/' :: name) start flags mode =
      σ.last nested flags.effective mode σ.root name := by
  have hstrip : stripSlashes ('/' :: name) = '/' :: name := stripSlashes_append hslash hname ['/']
  rw [resolveWith_of_root hlen hstrip hname, splitOn_eq_singleton hslash, walk_singleton hname rfl]

/-- **A path is resolved by resolving the part before its last slash**, if that is not empty. -/
theorem resolveWith_snoc (hslash : '/' ∉ name) (hname : name ≠ []) (hpath : path ≠ [])
    (hlen : (path ++ '/' :: name).length ≤ 255) :
    σ.resolveWith nested (path ++ '/' :: name) start flags mode =
      match (σ.resolveWith nested path start ⟨false, false⟩ 0).2 with
      | .error e => (σ, .error e)
      | .ok found => σ.last nested flags.effective mode found.node name := by
  have hstrip : stripSlashes (path ++ '/' :: name) = path ++ '/' :: name := by
    rw [append_cons]
    exact stripSlashes_append hslash hname _
  have hshort : path.length ≤ 255 := by
    rw [length_append] at hlen
    omega
  have hsplit : ∀ q : Name, (q ++ '/' :: name).splitOn '/' = q.splitOn '/' ++ [name] := by
    intro q
    rw [splitOn_append_cons_self, splitOn_eq_singleton hslash]
  have hflags : (⟨false, false⟩ : Flags).effective = ⟨false, false⟩ := rfl
  obtain ⟨c, q, rfl⟩ := exists_cons_of_ne_nil hpath
  by_cases hc : c = '/'
  · subst hc
    rw [resolveWith_of_root (q := q ++ '/' :: name) hlen hstrip (by simp), hsplit,
      walk_concat hname rfl]
    by_cases hq : q.rdropWhile (· = '/') = []
    · -- The part before is the root: all its segments are empty.
      rw [resolveWith_slash hshort (by rw [stripSlashes, hq]), ← descend_rdropWhile, hq]
      rfl
    · rw [resolveWith_of_root hshort rfl hq, hflags, walk_eq_descend, descend_rdropWhile]
  · rw [resolveWith_of_ne hlen, hstrip, hsplit, walk_concat hname rfl, resolveWith_of_ne hshort,
      stripSlashes, ← rdropWhile_cons_of_ne hc, hflags, walk_eq_descend, descend_rdropWhile]
    · intro q' heq
      exact hc (cons.inj heq).1
    · intro q' heq
      rw [hstrip] at heq
      exact hc (cons.inj heq).1

theorem pathResolve_nil (start : InodeId) (flags : Flags) (mode : ℕ) :
    σ.pathResolve [] start flags mode = (σ, .ok ⟨none, start, false⟩) := rfl

theorem cutName_ne_nil (hpath : path ≠ []) (hlast : path.getLast? ≠ some '/') :
    cutName path ≠ [] := by
  unfold cutName
  split
  · next sep hsep =>
    intro hnil
    rw [(strrchrm_eq_some hsep).1, hnil] at hlast
    simp at hlast
  · exact hpath

/-- **A path is resolved by cutting it at its last slash**, unless that is the first character and
the call does not start at the root. -/
theorem pathResolve_eq_cut (hpath : path ≠ []) (hlen : path.length ≤ 255)
    (hlast : path.getLast? ≠ some '/') (hfirst : strrchrm path '/' = some 0 → start = σ.root)
    (flags : Flags) (mode : ℕ) :
    σ.pathResolve path start flags mode =
      match σ.cut start path with
      | .error e => (σ, .error e)
      | .ok parent => σ.last (σ.resolveLink 64) flags.effective mode parent (cutName path) := by
  have hname := cutName_ne_nil hpath hlast
  unfold cut
  unfold cutName at hname ⊢
  cases hsep : strrchrm path '/' with
  | none => exact resolveWith_name (strrchrm_eq_none hsep) hpath hlen
  | some sep =>
    obtain ⟨hcut, hslash⟩ := strrchrm_eq_some hsep
    rw [hsep] at hname
    dsimp only at hname ⊢
    cases sep with
    | zero =>
      have hcut' : '/' :: path.drop 1 = path := hcut.symm
      rw [take_zero, pathResolve_nil, hfirst hsep]
      conv_lhs => rw [← hcut']
      exact resolveWith_slash_name hslash hname (by rw [hcut']; exact hlen)
    | succ sep =>
      have hbefore : path.take (sep + 1) ≠ [] := by simp [hpath]
      conv_lhs => rw [hcut]
      rw [pathResolve, resolveWith_snoc hslash hname hbefore (by rw [← hcut]; exact hlen)]
      unfold pathResolve
      cases
        (σ.resolveWith (σ.resolveLink 64) (path.take (sep + 1)) start ⟨false, false⟩ 0).2 <;> rfl

end Cut

end State

end SeaKernel.Vfs
