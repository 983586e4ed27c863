import SalernosKernel.VfsLookup

/-! # Symbolic links

A resolver that puts the target of a link in front of what is left of the path, and what
`com_fs_vfs_lookup` does in its place. -/
namespace VfsSymlinks

open Vfs VfsLookup PathResolution Option
open Except (toOption)

def origin (t : Tree) (root dir link : ℕ) : ℕ := start (t.node link).link root dir

def target (t : Tree) (link : ℕ) : List Bytes := components slash (t.node link).link

def posixWalk (t : Tree) (v : ℕ) : List Bytes → Option Walk
  | [] => some (.done v)
  | name :: names =>
    match step t v name with
    | .error _ => none
    | .ok w =>
      if name ≠ dot ∧ (t.node w).type = .link then some (.link (lookupDir t v name) w names)
      else posixWalk t w names

/-- Resolution with at most `budget` links: what is found and what is left of the budget. A link
that is the last component is followed if it `must` be. -/
def posix (t : Tree) (root : ℕ) (must : Bool) (budget v : ℕ) (names : List Bytes) :
    Option (ℕ × ℕ) :=
  match posixWalk t v names with
  | none => none
  | some (.done x) => some (x, budget)
  | some (.link dir link rest) =>
    if rest = [] ∧ must = false then some (link, budget)
    else
      match budget with
      | 0 => none
      | budget + 1 => posix t root must budget (origin t root dir link) (target t link ++ rest)

/-- A slash at the end of a path follows the last component. -/
def mustFollow (path : Bytes) (follow : Bool) : Bool :=
  follow || decide (path.getLast? = some slash)

def expand (t : Tree) (root budget dir link : ℕ) : Option (ℕ × ℕ) :=
  match budget with
  | 0 => none
  | budget + 1 => posix t root true budget (origin t root dir link) (target t link)

variable {t : Tree} {root v w dir link budget : ℕ} {must : Bool} {names l r : List Bytes}
  {path name : Bytes}

theorem posixWalk_eq (t : Tree) (v : ℕ) (names : List Bytes) :
    posixWalk t v names = (walk t v names).toOption := by
  induction names generalizing v with
  | nil => rfl
  | cons name names ih =>
    rw [posixWalk, walk]
    split_ifs with hdt
    · simpa [step, hdt] using ih v
    · rw [← lookupComponent_fst hdt]
      cases hlu : (lookupComponent t v name).1 with
      | error e => rfl
      | ok r =>
        obtain ⟨d, x⟩ := r
        simp only [Except.map, ne_eq, hdt, not_false_iff, true_and]
        split_ifs with hlk
        · rw [(lookupComponent_link hlu hlk).1]
          rfl
        · exact ih x

/-- The rounds of `com_fs_vfs_lookup`: from a link that was followed on, its end is the root. -/
def rounds (t : Tree) (must : Bool) : ℕ → ℕ → List Bytes → Option ℕ
  | _, v, [] => some v
  | root, v, name :: names =>
    if name = dot then rounds t must root v names
    else
      match (lookupComponent t v name).1 with
      | .error _ => none
      | .ok (dir, w) =>
        if (t.node w).type = .link then
          if names = [] ∧ must = false then some w
          else (vfsLookup2 t root (some dir) w).1.toOption.bind fun x => rounds t must x x names
        else rounds t must root w names

theorem rounds_walk (t : Tree) (must : Bool) (root v : ℕ) (names : List Bytes) :
    rounds t must root v names =
      match walk t v names with
      | .error _ => none
      | .ok (.done x) => some x
      | .ok (.link dir w rest) =>
        if rest = [] ∧ must = false then some w
        else (vfsLookup2 t root (some dir) w).1.toOption.bind fun x => rounds t must x x rest := by
  induction names generalizing v with
  | nil => rfl
  | cons name names ih =>
    rw [rounds, walk]
    by_cases hdt : name = dot
    · rw [if_pos hdt, if_pos hdt]
      exact ih v
    · rw [if_neg hdt, if_neg hdt]
      cases (lookupComponent t v name).1 with
      | error e => rfl
      | ok found =>
        dsimp only
        by_cases hlk : (t.node found.2).type = .link
        · rw [if_pos hlk, if_pos hlk]
        · rw [if_neg hlk, if_neg hlk]
          exact ih found.2

variable {cwd dir' fuel link' n root' : ℕ}

theorem lookupLinks_type {cwd : Option ℕ}
    (h : (lookupLinks t root fuel cwd link).1 = .ok v) : (t.node v).type ≠ .link := by
  induction fuel generalizing cwd link with
  | zero => cases h
  | succ fuel ih =>
    rw [lookupLinks] at h
    split at h
    · next hlk =>
      cases h
      exact hlk
    · cases hfs : vfsLookup1 t (t.node link).link root cwd with
      | mk result ops =>
      rw [hfs] at h
      cases result with
      | error e => cases h
      | ok hit => exact ih h

theorem vfsLookup2_type {cwd : Option ℕ} (h : (vfsLookup2 t root cwd link).1.toOption = some v) :
    (t.node v).type ≠ .link := by
  have hok : (lookupLinks t root symlinkMax cwd link).1 = .ok v := by
    rw [← vfsLookup2]
    cases hrs : (vfsLookup2 t root cwd link).1 with
    | error e => simp [hrs, toOption] at h
    | ok x => simpa [hrs, toOption] using h
  exact lookupLinks_type hok

variable {cut rest : List Bytes}

theorem walk_link_type (h : walk t v names = .ok (.link dir w rest)) :
    (t.node w).type = .link ∧ (t.node dir).type = .dir := by
  induction names generalizing v with
  | nil => cases h
  | cons name names ih =>
    rw [walk] at h
    split at h
    · exact ih h
    · split at h
      · cases h
      · next d x hlu =>
        split at h
        · next hlk =>
          cases h
          exact ⟨hlk, (lookupComponent_link hlu hlk).2.1⟩
        · exact ih h

theorem start_type (hrt : (t.node root).type ≠ .link) (hcwd : (t.node cwd).type ≠ .link)
    (path : Bytes) : (t.node (start path root cwd)).type ≠ .link := by
  unfold start
  split
  · exact hrt
  · exact hcwd

theorem mustFollow_of_suffix {rest : Bytes} (h : slash :: rest <:+ path) (follow : Bool) :
    mustFollow path follow = mustFollow (slash :: rest) follow ∧
      (components slash rest = [] → mustFollow path follow = true) := by
  have hls : path.getLast? = (slash :: rest).getLast? := by
    obtain ⟨before, rfl⟩ := h
    simp [List.getLast?_eq_some_getLast]
  refine ⟨by rw [mustFollow, mustFollow, hls], fun hnl => ?_⟩
  have hsp : ∀ x ∈ slash :: rest, x = slash := eq_sep_of_components_nil (by simpa using hnl)
  have hsl := hsp _ (List.getLast_mem (List.cons_ne_nil slash rest))
  simp [mustFollow, hls, List.getLast?_eq_some_getLast, hsl]

theorem lookupRounds_eq (t : Tree) (wild : Option ℕ) (follow : Bool)
    (h : path.length < fuel) (hrt : (t.node root).type ≠ .link)
    (hcwd : (t.node cwd).type ≠ .link) :
    (lookupRounds t wild follow fuel path root (some cwd)).1.toOption =
      rounds t (mustFollow path follow) root (start path root cwd) (components slash path) := by
  induction fuel generalizing path root cwd with
  | zero => exact absurd h (Nat.not_lt_zero _)
  | succ fuel ih =>
    have hed := vfsLookup1_sameEnd t path root cwd
    have hlf : ∀ hit, (vfsLookup1 t path root (some cwd)).1 = .ok hit → Leftover path hit :=
      fun hit => vfsLookup1_leftover
    rw [lookupRounds, rounds_walk]
    cases hwk : walk t (start path root cwd) (components slash path) with
    | error e =>
      rw [hwk] at hed
      cases hlu : vfsLookup1 t path root (some cwd) with
      | mk result ops =>
      rw [hlu] at hed
      cases hed
      rfl
    | ok found =>
      rw [hwk] at hed
      cases hlu : vfsLookup1 t path root (some cwd) with
      | mk result ops =>
      rw [hlu] at hed hlf
      cases hed with
      | done x =>
        have hx := walk_done_type (start_type hrt hcwd path) hwk
        simp [hx, toOption]
      | last dir w =>
        have hw := (walk_link_type hwk).1
        obtain ⟨c, hc, hne⟩ := (hlf _ rfl).last rfl rfl
        have hms : mustFollow path follow = follow := by simp [mustFollow, hc, hne]
        rw [hms]
        cases follow with
        | false => simp [toOption]
        | true =>
          cases hln : vfsLookup2 t root (some dir) w with
          | mk result' ops' =>
          cases result' <;> simp [hw, hln, toOption, rounds]
      | link dir w rest =>
        obtain ⟨hms, hsl⟩ := mustFollow_of_suffix ((hlf _ rfl).suffix _ rfl) follow
        have hgo : ¬ (components slash rest = [] ∧ mustFollow path follow = false) :=
          fun hls => by simp [hsl hls.1] at hls
        have hlt : (slash :: rest).length < fuel := by
          have hsh := (hlf _ rfl).shorter _ rfl
          omega
        dsimp only
        rw [if_neg hgo]
        cases hln : vfsLookup2 t root (some dir) w with
        | mk result' ops' =>
        cases result' with
        | error e => simp [hln, toOption]
        | ok x =>
          have hfn : (vfsLookup2 t root (some dir) w).1.toOption = some x := by
            rw [hln]
            rfl
          have hx := vfsLookup2_type hfn
          have hnext := ih hlt hx hx
          rw [hms]
          simpa [hln, toOption, start] using hnext

/-- A link leads through `n` links to a vnode that is none. The target of each is walked up to the
next; what is left of the targets is `cut`. -/
inductive Chain (t : Tree) (root : ℕ) : ℕ → ℕ → ℕ → ℕ → List Bytes → Prop where
  | last {dir link v : ℕ}
      (h : posixWalk t (origin t root dir link) (target t link) = some (.done v)) :
      Chain t root dir link 1 v []
  | next {dir link dir' link' n v : ℕ} {rest cut : List Bytes}
      (h : posixWalk t (origin t root dir link) (target t link) = some (.link dir' link' rest))
      (hnext : Chain t root dir' link' n v cut) : Chain t root dir link (n + 1) v (cut ++ rest)

theorem Chain.unique {n' v v' : ℕ} {cut' : List Bytes} (h : Chain t root dir link n v cut)
    (h' : Chain t root dir link n' v' cut') : n = n' ∧ v = v' ∧ cut = cut' := by
  induction h generalizing n' v' cut' with
  | last hwk =>
    cases h' with
    | last hwk' =>
      rw [hwk] at hwk'
      cases hwk'
      exact ⟨rfl, rfl, rfl⟩
    | next hwk' _ =>
      rw [hwk] at hwk'
      cases hwk'
  | next hwk _ ih =>
    cases h' with
    | last hwk' =>
      rw [hwk] at hwk'
      cases hwk'
    | next hwk' hnext' =>
      rw [hwk] at hwk'
      cases hwk'
      obtain ⟨rfl, rfl, rfl⟩ := ih hnext'
      exact ⟨rfl, rfl, rfl⟩

theorem chain_next_iff
    (h : posixWalk t (origin t root dir link) (target t link) = some (.link dir' link' rest)) :
    (∃ n < fuel, ∃ cut, Chain t root dir' link' n v cut) ↔
      ∃ n < fuel + 1, ∃ cut, Chain t root dir link n v cut := by
  constructor
  · rintro ⟨n, hn, cut, hch⟩
    exact ⟨n + 1, by omega, cut ++ rest, .next h hch⟩
  · rintro ⟨n, hn, cut, hch⟩
    cases hch with
    | last h' =>
      rw [h] at h'
      cases h'
    | next h' hnext =>
      rw [h] at h'
      cases h'
      exact ⟨_, by omega, _, hnext⟩

theorem lookupLinks_ok_iff (hrt : (t.node root).type ≠ .link)
    (hdr : (t.node dir).type ≠ .link) (hlk : (t.node link).type = .link) :
    (lookupLinks t root fuel (some dir) link).1 = .ok v ↔
      ∃ n < fuel, ∃ cut, Chain t root dir link n v cut := by
  induction fuel generalizing dir link with
  | zero => simp [lookupLinks]
  | succ fuel ih =>
    have hed := vfsLookup1_sameEnd t (t.node link).link root dir
    have hwk := posixWalk_eq t (origin t root dir link) (target t link)
    change SameEnd _ (walk t (origin t root dir link) (target t link)) at hed
    rw [lookupLinks, if_neg (not_not.mpr hlk)]
    cases hlu : vfsLookup1 t (t.node link).link root (some dir) with
    | mk result ops =>
    rw [hlu] at hed
    cases hfn : walk t (origin t root dir link) (target t link) with
    | error e =>
      rw [hfn] at hed hwk
      cases hed
      refine iff_of_false (by simp) ?_
      rintro ⟨n, -, cut, hch⟩
      cases hch with
      | last h | next h _ => simp [hwk, toOption] at h
    | ok found =>
      rw [hfn] at hed hwk
      cases hed with
      | done x =>
        have hx := walk_done_type (start_type hrt hdr _) hfn
        have hls : Chain t root dir link 1 x [] := .last hwk
        cases fuel with
        | zero =>
          refine iff_of_false (by simp [lookupLinks]) ?_
          rintro ⟨n, hn, cut, hch⟩
          have := (hls.unique hch).1
          omega
        | succ fuel =>
          simp only [lookupLinks, if_pos hx, Except.ok.injEq]
          constructor
          · rintro rfl
            exact ⟨1, by omega, [], hls⟩
          · rintro ⟨n, -, cut, hch⟩
            exact (hls.unique hch).2.1
      | last dir' link' | link dir' link' rest =>
        obtain ⟨hlk', hdr'⟩ := walk_link_type hfn
        exact (ih (by simp [hdr']) hlk').trans (chain_next_iff hwk)

theorem vfsLookup2_eq_some_iff (hrt : (t.node root).type ≠ .link)
    (hdr : (t.node dir).type ≠ .link) (hlk : (t.node link).type = .link) :
    (vfsLookup2 t root (some dir) link).1.toOption = some v ↔
      ∃ n < symlinkMax, ∃ cut, Chain t root dir link n v cut := by
  rw [← lookupLinks_ok_iff hrt hdr hlk, vfsLookup2]
  cases (lookupLinks t root symlinkMax (some dir) link).1 <;> simp [toOption]

/-- What a link leads to, through `n` links. Each target is walked to its end, or to a link that is
its last component, or leads nowhere; if a link was followed before, no target is absolute. -/
inductive Whole (t : Tree) (root : ℕ) (after : Bool) : ℕ → ℕ → ℕ → Option ℕ → Prop where
  | dangling {dir link : ℕ} (hrel : after = true → (t.node link).link.head? ≠ some slash)
      (h : posixWalk t (origin t root dir link) (target t link) = none) :
      Whole t root after dir link 1 none
  | last {dir link v : ℕ} (hrel : after = true → (t.node link).link.head? ≠ some slash)
      (h : posixWalk t (origin t root dir link) (target t link) = some (.done v)) :
      Whole t root after dir link 1 (some v)
  | next {dir link dir' link' n : ℕ} {v : Option ℕ}
      (hrel : after = true → (t.node link).link.head? ≠ some slash)
      (h : posixWalk t (origin t root dir link) (target t link) = some (.link dir' link' []))
      (hnext : Whole t root after dir' link' n v) : Whole t root after dir link (n + 1) v

section

variable {after : Bool} {x : Option ℕ}

end

/-- The links `a` to `b/c` and `b` to `d`, and in the directory `d` a file `c` and the link `e` to
`/d`. -/
def nested : Tree where
  node v := match v with
    | 0 => ⟨.dir, 0, none, true, none, [([97], 1), ([98], 2), ([100], 3)], []⟩
    | 1 => ⟨.link, 0, none, false, some 0, [], [98, 47, 99]⟩
    | 2 => ⟨.link, 0, none, false, some 0, [], [100]⟩
    | 3 => ⟨.dir, 0, none, false, some 0, [([99], 4), ([101], 5)], []⟩
    | 4 => ⟨.file, 0, none, false, some 3, [], []⟩
    | _ => ⟨.link, 0, none, false, some 3, [], [47, 100]⟩
  vfs _ := ⟨none, 0⟩
  numVfs := 1
  mounted v f h := by
    rcases v with _ | _ | _ | _ | _ | v <;> simp at h
  root f h := ⟨by simp at h; exact h.symm, rfl⟩
  mountpoint f v h := by simp at h
  parent v p h := by
    rcases v with _ | _ | _ | _ | _ | v <;> simp at h <;> subst h <;> rfl
  bound v := by
    rcases v with _ | _ | _ | _ | _ | v <;> simp

end VfsSymlinks
