import SalernosKernel.VfsLookup

/-! # References of a lookup

A lookup holds the vnode it is at. -/
namespace VfsReferences

open Vfs VfsLookup PathResolution

def unit (v u : ℕ) : ℤ := if u = v then 1 else 0

def RefOp.change (u : ℕ) : RefOp → ℤ
  | .hold v => unit v u
  | .release v => -unit v u

def net : List RefOp → ℕ → ℤ
  | [], _ => 0
  | op :: ops, u => RefOp.change u op + net ops u

variable {t : Tree} {v w dir u : ℕ} {name path : Bytes} {ops ops' : List RefOp}

@[simp] theorem net_nil : net [] u = 0 := rfl

@[simp] theorem net_hold : net (.hold v :: ops) u = unit v u + net ops u := rfl

@[simp] theorem net_release : net (.release v :: ops) u = net ops u - unit v u := by
  simp only [net, RefOp.change]
  omega

@[simp] theorem net_append : net (ops ++ ops') u = net ops u + net ops' u := by
  induction ops with
  | nil => simp
  | cons op ops ih =>
    simp only [List.cons_append, net, ih]
    omega

def Neutral (r : Except Errno ℕ × List RefOp) : Prop :=
  match r.1 with
  | .ok v => ∀ u, net r.2 u = unit v u
  | .error _ => ∀ u, net r.2 u = 0

theorem net_climb (t : Tree) (fuel v u : ℕ) :
    net (climb t fuel v).2 u = unit (climb t fuel v).1 u - unit v u := by
  induction fuel generalizing v with
  | zero => simp [climb]
  | succ fuel ih =>
    simp only [climb]
    cases t.above v with
    | none => simp
    | some m =>
      simp only [net_release, net_hold, ih m]
      omega

theorem over_ne {r : ℕ} (h : t.over v = some r) : v ≠ r := by
  rintro rfl
  exact absurd (over_gt h) (lt_irrefl _)

theorem net_descend (hne : dir ≠ v) (fuel u : ℕ) :
    net (descend t fuel dir v).2 u = unit (descend t fuel dir v).1.1 u +
      unit (descend t fuel dir v).1.2 u - unit dir u - unit v u := by
  induction fuel generalizing dir v with
  | zero =>
    simp only [descend, net_nil]
    omega
  | succ fuel ih =>
    simp only [descend]
    cases hov : t.over v with
    | none =>
      simp only [net_nil]
      omega
    | some r =>
      simp only [hne, ne_eq, not_false_iff, if_true, List.singleton_append, net_release, net_hold,
        ih (over_ne hov)]
      omega

theorem net_descend_self {r : ℕ} (hov : t.over v = some r) (fuel u : ℕ) :
    net (descend t (fuel + 1) v v).2 u = unit (descend t (fuel + 1) v v).1.1 u +
      unit (descend t (fuel + 1) v v).1.2 u - unit v u := by
  simp only [descend, hov, ne_eq, not_true_eq_false, if_false, List.nil_append, net_hold,
    net_descend (over_ne hov)]
  omega

def Stationary (t : Tree) (v : ℕ) (name : Bytes) : Prop :=
  name = dotdot ∧ (t.node (top t v)).parent = none ∧ t.over (top t v) = none

theorem unit_nonneg (v u : ℕ) : 0 ≤ unit v u := by
  unfold unit
  split <;> omega

theorem unit_self (v : ℕ) : unit v v = 1 := if_pos rfl

structure Leaves (net : ℕ → ℤ) (left : ℕ → ℤ) (clean : Prop) : Prop where
  nonneg : ∀ u, left u ≤ net u
  iff : (∀ u, net u = left u) ↔ clean

theorem leaves_of_extra {f left : ℕ → ℤ} (extra : ℕ) (more : ℕ → ℤ) (hmr : ∀ u, 0 ≤ more u)
    (h : ∀ u, f u = left u + unit extra u + more u) : Leaves f left False := by
  refine ⟨fun u => ?_, iff_of_false (fun hal => ?_) not_false⟩
  · have hu := h u
    have hnn := unit_nonneg extra u
    have hmr' := hmr u
    omega
  · have hu := h extra
    have hal' := hal extra
    have hmr' := hmr extra
    rw [unit_self] at hu
    omega

theorem leaves_found (t : Tree) (d : ℕ) (name : Bytes) {w : ℕ} {ops : List RefOp}
    (h : comFsTmpfsLookup t d name = (.ok w, ops)) :
    Leaves (fun u => unit d u + net ops u + net (descend t t.numVfs d w).2 u)
      (unit (descend t t.numVfs d w).1.2)
      (name = dotdot ∧ (t.node d).parent = none ∧ t.over d = none) := by
  obtain ⟨n, hn⟩ := numVfs_succ t
  -- a vnode that was found with a reference of its own leaves the directory behind
  have hhd : ops = [.hold w] → Leaves
      (fun u => unit d u + net ops u + net (descend t t.numVfs d w).2 u)
      (unit (descend t t.numVfs d w).1.2) False := by
    rintro rfl
    by_cases hdw : d = w
    · subst hdw
      cases hov : t.over d with
      | none =>
        refine leaves_of_extra d (fun _ => 0) (fun _ => Int.le_refl 0) fun u => ?_
        simp [descend_of_none hov]
      | some r =>
        refine leaves_of_extra d (unit (descend t t.numVfs d d).1.1) (unit_nonneg _) fun u => ?_
        rw [hn]
        simp only [net_hold, net_nil, net_descend_self hov]
        omega
    · refine leaves_of_extra (descend t t.numVfs d w).1.1 (fun _ => 0)
        (fun _ => Int.le_refl 0) fun u => ?_
      simp only [net_hold, net_nil, net_descend hdw]
      omega
  unfold comFsTmpfsLookup at h
  split at h
  · next hnm =>
    cases hpr : (t.node d).parent with
    | some p =>
      simp only [hpr, Prod.mk.injEq, Except.ok.injEq] at h
      obtain ⟨rfl, rfl⟩ := h
      simpa using hhd rfl
    | none =>
      simp only [hpr, Prod.mk.injEq, Except.ok.injEq] at h
      obtain ⟨rfl, rfl⟩ := h
      cases hov : t.over d with
      | none => exact ⟨fun u => by simp [descend_of_none hov],
          iff_of_true (fun u => by simp [descend_of_none hov]) ⟨hnm, rfl, rfl⟩⟩
      | some r =>
        have het : Leaves (fun u => unit d u + net [] u + net (descend t t.numVfs d d).2 u)
            (unit (descend t t.numVfs d d).1.2) False := by
          refine leaves_of_extra (descend t t.numVfs d d).1.1 (fun _ => 0)
            (fun _ => Int.le_refl 0) fun u => ?_
          rw [hn]
          simp only [net_nil, net_descend_self hov]
          omega
        simpa using het
  · next hnm =>
    cases hfd : (t.node d).entries.find? (·.1 = name) with
    | some entry =>
      simp only [hfd, Prod.mk.injEq, Except.ok.injEq] at h
      obtain ⟨rfl, rfl⟩ := h
      simpa [hnm] using hhd rfl
    | none => simp [hfd] at h

def heldBy (result : Except Errno ℕ) (u : ℕ) : ℤ :=
  match result with
  | .ok v => unit v u
  | .error _ => 0

theorem neutral_iff (r : Except Errno ℕ × List RefOp) : Neutral r ↔ ∀ u, net r.2 u = heldBy r.1 u := by
  unfold Neutral heldBy
  cases r.1 <;> rfl

theorem Leaves.congr {f g left : ℕ → ℤ} {A : Prop} (h : Leaves f left A) (hfg : ∀ u, g u = f u) :
    Leaves g left A := by
  rwa [funext hfg]

theorem Leaves.exact {f left : ℕ → ℤ} (h : ∀ u, f u = left u) : Leaves f left True :=
  ⟨fun u => Int.le_of_eq (h u).symm, iff_of_true h trivial⟩

theorem Leaves.trans {f mid more left : ℕ → ℤ} {A B : Prop} (h : Leaves f mid A)
    (h' : Leaves (fun u => mid u + more u) left B) : Leaves (fun u => f u + more u) left (A ∧ B) := by
  refine ⟨fun u => ?_, fun hal => ?_, fun hAB u => ?_⟩
  · have h₁ := h.nonneg u
    have h₂ := h'.nonneg u
    omega
  · have hmd : ∀ u, f u = mid u := fun u => by
      have h₁ := h.nonneg u
      have h₂ := h'.nonneg u
      have h₃ := hal u
      omega
    refine ⟨h.iff.mp hmd, h'.iff.mp fun u => ?_⟩
    have h₃ := hal u
    rw [hmd u] at h₃
    exact h₃
  · have h₁ := h.iff.mpr hAB.1 u
    have h₂ := h'.iff.mpr hAB.2 u
    omega

theorem leaves_component (t : Tree) (v : ℕ) (name : Bytes) :
    Leaves (fun u => unit v u + net (lookupComponent t v name).2 u)
      (heldBy ((lookupComponent t v name).1.map Prod.snd))
      (∀ r, (lookupComponent t v name).1 = .ok r → Stationary t v name) := by
  have hsa : ∀ u, unit v u +
      net (if name = dotdot then climb t t.numVfs v else (v, [])).2 u =
        unit (lookupDir t v name) u := by
    intro u
    unfold lookupDir top
    split
    · rw [net_climb, climb_fst]
      omega
    · simp
  simp only [lookupComponent, lookupStart_fst]
  split
  · refine ⟨fun u => ?_, iff_of_true (fun u => ?_) (by simp)⟩
    all_goals
      have hu := hsa u
      simp only [heldBy, Except.map, net_append, net_release, net_nil]
      omega
  · cases hlu : comFsTmpfsLookup t (lookupDir t v name) name with
    | mk result ops =>
    cases result with
    | error e =>
      have hop : ops = [] := by
        unfold comFsTmpfsLookup at hlu
        split at hlu
        · split at hlu <;> cases hlu
        · split at hlu
          · cases hlu
          · exact (Prod.mk.inj hlu).2.symm
      refine ⟨fun u => ?_, iff_of_true (fun u => ?_) (by simp)⟩
      all_goals
        have hu := hsa u
        simp only [heldBy, Except.map, hop, List.append_nil, net_append, net_release, net_nil]
        omega
    | ok w =>
      have hfn := leaves_found t (lookupDir t v name) name hlu
      have hcl : (name = dotdot ∧ (t.node (lookupDir t v name)).parent = none ∧
          t.over (lookupDir t v name) = none) ↔ Stationary t v name := by
        unfold Stationary lookupDir
        by_cases hnm : name = dotdot <;> simp [hnm]
      rw [hcl] at hfn
      have hlv := hfn.congr (g := fun u => unit v u + net
        ((if name = dotdot then climb t t.numVfs v else (v, [])).2 ++ ops ++
          (descend t t.numVfs (lookupDir t v name) w).2) u) fun u => by
        have hu := hsa u
        simp only [net_append]
        omega
      refine ⟨hlv.nonneg, hlv.iff.trans ⟨fun hs _ _ => hs, fun hs => hs _ rfl⟩⟩

def WalkStill (t : Tree) (v : ℕ) : List Bytes → Prop
  | [] => True
  | name :: names =>
    if name = dot then WalkStill t v names
    else ∀ r, (lookupComponent t v name).1 = .ok r → Stationary t v name ∧ WalkStill t r.2 names

theorem Stationary.type {r : ℕ × ℕ} (h : Stationary t v name)
    (hr : (lookupComponent t v name).1 = .ok r) : (t.node r.2).type = .dir := by
  obtain ⟨rfl, hpr, hov⟩ := h
  have hst := lookupComponent_fst (show dotdot ≠ dot by decide) t v
  rw [hr] at hst
  by_cases hdr : (t.node (top t v)).type = .dir
  · have hbt : bottom t (top t v) = top t v := exhaust_of_none hov _
    simp [step, lookupDir, hdr, child, hpr, hbt, Except.map,
      show dotdot ≠ dot by decide] at hst
    rwa [hst]
  · simp [step, lookupDir, hdr, Except.map, show dotdot ≠ dot by decide] at hst

def heldByWalk (result : Except Errno Walk) (u : ℕ) : ℤ :=
  match result with
  | .ok (.done v) => unit v u
  | .ok (.link _ w _) => unit w u
  | .error _ => 0

theorem leaves_walk (t : Tree) (v : ℕ) (names : List Bytes) :
    Leaves (fun u => unit v u + net (walkOps t v names) u) (heldByWalk (walk t v names))
      (WalkStill t v names) := by
  induction names generalizing v with
  | nil => exact .exact fun u => by simp [walkOps, heldByWalk, walk]
  | cons name names ih =>
    rw [walk, walkOps, WalkStill]
    split
    · exact ih v
    · have hcm := leaves_component t v name
      cases hlu : lookupComponent t v name with
      | mk result ops =>
      simp only [hlu] at hcm ⊢
      cases result with
      | error e =>
        exact ⟨hcm.nonneg, hcm.iff.trans (iff_of_true (by simp) (by simp))⟩
      | ok r =>
        obtain ⟨dir, w⟩ := r
        have hstt : Leaves (fun u => unit v u + net ops u) (unit w) (Stationary t v name) :=
          ⟨hcm.nonneg, hcm.iff.trans ⟨fun hs => hs _ rfl, fun hs _ _ => hs⟩⟩
        have hcl : (∀ r : ℕ × ℕ, Except.ok (dir, w) = (Except.ok r : Except Errno (ℕ × ℕ)) →
            Stationary t v name ∧ WalkStill t r.2 names) ↔
            Stationary t v name ∧ WalkStill t w names :=
          ⟨fun hs => hs _ rfl, fun hs r hr => by cases hr; exact hs⟩
        rw [hcl]
        dsimp only
        split
        · next hlk =>
          -- a link is not found by a stationary component
          have hnot : ¬ Stationary t v name := fun hs => by
            have hty := hs.type (r := (dir, w)) (by rw [hlu])
            simp [hlk] at hty
          exact ⟨hstt.nonneg, hstt.iff.trans (iff_of_false hnot fun hs => hnot hs.1)⟩
        · have hrs := hstt.trans (ih w)
          exact hrs.congr fun u => by
            simp only [net_append]
            omega

theorem not_walkStill_of_link {dir : ℕ} {rest names : List Bytes}
    (h : walk t v names = .ok (.link dir w rest)) : ¬ WalkStill t v names := by
  induction names generalizing v with
  | nil => cases h
  | cons name names ih =>
    rw [walk] at h
    rw [WalkStill]
    split at h
    · next hdt =>
      rw [if_pos hdt]
      exact ih h
    · next hdt =>
      rw [if_neg hdt]
      split at h
      · cases h
      · next r d x hlu =>
        intro hstl
        obtain ⟨hs, hrs⟩ := hstl _ hlu
        split at h
        · next hlk =>
          have hty := hs.type hlu
          simp [hlk] at hty
        · exact ih h hrs

def heldByHit (result : Except Errno Hit) : ℕ → ℤ := heldBy (result.map Hit.vn)

theorem heldByHit_eq {result : Except Errno Hit} {found : Except Errno Walk}
    (h : SameEnd result found) : heldByHit result = heldByWalk found := by
  cases h <;> rfl

def Still1 (t : Tree) (path : Bytes) (root : ℕ) (cwd : Option ℕ) : Prop :=
  ∀ v, path.head? = some slash ∧ v = root ∨ path.head? ≠ some slash ∧ cwd = some v →
    WalkStill t v (components slash path)

theorem leaves_lookup1 (t : Tree) (path : Bytes) (root : ℕ) (cwd : Option ℕ) :
    Leaves (net (vfsLookup1 t path root cwd).2) (heldByHit (vfsLookup1 t path root cwd).1)
      (Still1 t path root cwd) := by
  have hfr : ∀ rest v, components slash rest = components slash path →
      Leaves (net (lookupFrom t rest v).2) (heldByHit (lookupFrom t rest v).1)
        (WalkStill t v (components slash path)) := by
    intro rest v hrs
    obtain ⟨hed, hop⟩ := lookupFrom_walk t rest v
    rw [heldByHit_eq hed, hop, ← hrs]
    exact (leaves_walk t v (components slash rest)).congr fun u => net_hold
  simp only [vfsLookup1, Still1]
  split
  · next hsl =>
    obtain ⟨rest, rfl⟩ := List.head?_eq_some_iff.mp hsl
    simpa using hfr rest root (by simp)
  · next hsl =>
    cases cwd with
    | none =>
      have hcl : Leaves (net []) (heldByHit (.error .EINVAL)) True := .exact fun _ => rfl
      simpa [hsl] using hcl
    | some v => simpa [hsl] using hfr path v rfl

def StillLinks (t : Tree) (root : ℕ) : ℕ → Option ℕ → ℕ → Prop
  | 0, _, _ => True
  | fuel + 1, cwd, link => (t.node link).type = .link →
    Still1 t (t.node link).link root cwd ∧
      ∀ hit, (vfsLookup1 t (t.node link).link root cwd).1 = .ok hit →
        StillLinks t root fuel (hit.dir.or cwd) hit.vn

theorem leaves_links (t : Tree) (root fuel : ℕ) (cwd : Option ℕ) (link : ℕ) :
    Leaves (fun u => unit link u + net (lookupLinks t root fuel cwd link).2 u)
      (heldBy (lookupLinks t root fuel cwd link).1) (StillLinks t root fuel cwd link) := by
  induction fuel generalizing cwd link with
  | zero =>
    refine .exact fun u => ?_
    simp only [lookupLinks, heldBy, net_release, net_nil]
    omega
  | succ fuel ih =>
    rw [lookupLinks, StillLinks]
    split
    · next hlk =>
      have hcl : Leaves (fun u => unit link u + net [] u) (heldBy (.ok link)) True :=
        .exact fun u => by simp [heldBy]
      simpa [hlk] using hcl
    · next hlk =>
      have hty : (t.node link).type = .link := not_not.mp hlk
      have hfs := leaves_lookup1 t (t.node link).link root cwd
      cases hlu : vfsLookup1 t (t.node link).link root cwd with
      | mk result ops =>
      simp only [hlu, hty, true_imp_iff] at hfs ⊢
      cases result with
      | error e =>
        have hlv := hfs.congr
          (g := fun u => unit link u + net (.release link :: ops) u) fun u => by
            simp only [net_release]
            omega
        refine ⟨hlv.nonneg, hlv.iff.trans ⟨fun hs => ⟨hs, by simp⟩, fun hs => hs.1⟩⟩
      | ok hit =>
        have hrs := hfs.trans (ih (hit.dir.or cwd) hit.vn)
        have hlv := hrs.congr (g := fun u => unit link u + net (.release link :: ops ++
          (lookupLinks t root fuel (hit.dir.or cwd) hit.vn).2) u) fun u => by
            simp only [net_append, net_release]
            omega
        refine ⟨hlv.nonneg, hlv.iff.trans (and_congr_right fun _ => ?_)⟩
        exact ⟨fun hs h hh => by cases hh; exact hs, fun hs => hs hit rfl⟩

/-- No component that is found in the whole lookup takes a reference of its own. -/
def Still (t : Tree) (wild : Option ℕ) (path : Bytes) (root : ℕ) (cwd : Option ℕ)
    (follow : Bool) : Prop :=
  Still1 t path root cwd ∧ ∀ hit, (vfsLookup1 t path root cwd).1 = .ok hit →
    hit.subpath.isSome ∨ ((t.node hit.vn).type = .link ∧ follow = true) →
      StillLinks t root symlinkMax (hit.dir.or wild) hit.vn ∧
        ∀ v, (vfsLookup2 t root (hit.dir.or wild) hit.vn).1 = .ok v → hit.subpath = none

theorem leaves_rounds (t : Tree) (wild : Option ℕ) (follow : Bool) {fuel : ℕ} {path : Bytes}
    (h : path.length < fuel) (root : ℕ) (cwd : Option ℕ) :
    Leaves (net (lookupRounds t wild follow fuel path root cwd).2)
      (heldBy (lookupRounds t wild follow fuel path root cwd).1)
      (Still t wild path root cwd follow) := by
  induction fuel generalizing path root cwd with
  | zero => exact absurd h (Nat.not_lt_zero _)
  | succ fuel ih =>
    rw [lookupRounds, Still]
    have hfs := leaves_lookup1 t path root cwd
    have hsh : ∀ hit rest, (vfsLookup1 t path root cwd).1 = .ok hit →
        hit.subpath = some rest → rest.length < path.length :=
      fun _ rest hht => (vfsLookup1_leftover hht).shorter rest
    cases hlu : vfsLookup1 t path root cwd with
    | mk result ops =>
    simp only [hlu] at hfs hsh ⊢
    cases result with
    | error e => exact ⟨hfs.nonneg, hfs.iff.trans ⟨fun hs => ⟨hs, by simp⟩, fun hs => hs.1⟩⟩
    | ok hit =>
      dsimp only
      split
      · next hcn =>
        have hln := hfs.trans (leaves_links t root symlinkMax (hit.dir.or wild) hit.vn)
        change Leaves (fun u => net ops u + net (vfsLookup2 t root (hit.dir.or wild) hit.vn).2 u)
          (heldBy (vfsLookup2 t root (hit.dir.or wild) hit.vn).1) _ at hln
        cases hlk : vfsLookup2 t root (hit.dir.or wild) hit.vn with
        | mk found ops' =>
        simp only [hlk] at hln
        have hlv := hln.congr (g := net (ops ++ ops')) fun u => net_append
        cases found with
        | error e =>
          refine ⟨hlv.nonneg, hlv.iff.trans (and_congr_right fun _ => ?_)⟩
          refine ⟨fun hs h hh _ => ?_, fun hs => (hs hit rfl hcn).1⟩
          cases hh
          exact ⟨hs, by simp [hlk]⟩
        | ok v =>
          cases hsb : hit.subpath with
          | none =>
            refine ⟨hlv.nonneg, hlv.iff.trans (and_congr_right fun _ => ?_)⟩
            refine ⟨fun hs h hh _ => ?_, fun hs => (hs hit rfl hcn).1⟩
            cases hh
            exact ⟨hs, fun _ _ => hsb⟩
          | some rest =>
            -- the next round holds the vnode it starts from once more
            have hlt := hsh hit rest rfl hsb
            have hnx := ih (show rest.length < fuel by omega) v (some v)
            have het : Leaves (net (ops ++ ops' ++
                (lookupRounds t wild follow fuel rest v (some v)).2))
                (heldBy (lookupRounds t wild follow fuel rest v (some v)).1) False := by
              refine leaves_of_extra v (fun u => net (ops ++ ops') u - unit v u + (net (lookupRounds
                t wild follow fuel rest v (some v)).2 u - heldBy (lookupRounds t wild follow fuel
                rest v (some v)).1 u))
                (fun u => ?_) fun u => ?_
              · have h₁ := hlv.nonneg u
                have h₂ := hnx.nonneg u
                simp only [heldBy] at h₁
                omega
              · rw [net_append]
                omega
            refine ⟨het.nonneg, het.iff.trans (iff_of_false not_false fun hs => ?_)⟩
            have hno := (hs.2 hit rfl hcn).2 v (by rw [hlk])
            simp [hsb] at hno
      · next hcn =>
        refine ⟨hfs.nonneg, hfs.iff.trans ⟨fun hs => ⟨hs, fun h hh hc => ?_⟩, fun hs => hs.1⟩⟩
        cases hh
        exact absurd hc hcn

theorem still_iff {wild cwd : Option ℕ} {root : ℕ} {follow : Bool}
    (hsa : startOf path root cwd = some v) (hv : (t.node v).type ≠ .link) :
    Still t wild path root cwd follow ↔ WalkStill t v (components slash path) := by
  have hon : Still1 t path root cwd ↔ WalkStill t v (components slash path) := by
    unfold startOf at hsa
    unfold Still1
    split at hsa
    · next hsl => simp [hsl, Option.some.inj hsa]
    · next hsl => simp [hsl, hsa]
  refine ⟨fun h => hon.mp h.1, fun h => ⟨hon.mpr h, fun hit hht hcn => ?_⟩⟩
  -- the walk has met no link, so there is nothing to follow
  obtain ⟨rest, hrs, heq⟩ := vfsLookup1_eq (t := t) hsa
  have hed := (lookupFrom_walk t rest v).1
  rw [← heq, hrs, hht] at hed
  cases hwk : walk t v (components slash path) with
  | error e =>
    rw [hwk] at hed
    cases hed
  | ok found =>
    rw [hwk] at hed
    cases hed with
    | done x =>
      have hx := walk_done_type hv hwk
      simp [hx] at hcn
    | last dir w => exact absurd h (not_walkStill_of_link hwk)
    | link dir w rest => exact absurd h (not_walkStill_of_link hwk)

/-- A lookup is neutral exactly when no component that is found takes a reference of its own. -/
theorem lookup_neutral_iff (t : Tree) (wild : Option ℕ) (path : Bytes) (root : ℕ) (cwd : Option ℕ)
    (follow : Bool) :
    (Neutral (comFsVfsLookup t wild path root cwd follow) ↔ Still t wild path root cwd follow) ∧
      ∀ v, startOf path root cwd = some v → (t.node v).type ≠ .link →
        (Still t wild path root cwd follow ↔ WalkStill t v (components slash path)) := by
  refine ⟨?_, fun v hsa hv => still_iff hsa hv⟩
  rw [neutral_iff]
  exact (leaves_rounds t wild follow (Nat.lt_succ_self path.length) root cwd).iff

/-- The path is `/../.`. -/
theorem lookup_neutral_root : (shadowed.node 0).type ≠ .link ∧
    (comFsVfsLookup shadowed none [47, 46, 46, 47, 46] 0 (some 3) true).1 = .ok 0 ∧
    Neutral (comFsVfsLookup shadowed none [47, 46, 46, 47, 46] 0 (some 3) true) := by
  have hroot : (shadowed.node 0).type ≠ .link := by decide
  obtain ⟨hneutral, hstill⟩ := lookup_neutral_iff shadowed none [47, 46, 46, 47, 46] 0 (some 3) true
  refine ⟨hroot, rfl, hneutral.mpr ((hstill 0 rfl hroot).mpr ?_)⟩
  exact fun r _ => ⟨⟨rfl, rfl, rfl⟩, trivial⟩

/-- Looking up `/b/` from the directory `a` leaves `a` with a reference too many. -/
theorem lookup_leaks_directory :
    (comFsVfsLookup shadowed none [47, 98, 47] 1 (some 1) true).1 = .ok 3 ∧
      net (comFsVfsLookup shadowed none [47, 98, 47] 1 (some 1) true).2 1 = 1 ∧
      ¬ Neutral (comFsVfsLookup shadowed none [47, 98, 47] 1 (some 1) true) := by
  refine ⟨rfl, rfl, fun h => ?_⟩
  have hon : net (comFsVfsLookup shadowed none [47, 98, 47] 1 (some 1) true).2 1 = unit 3 1 := h 1
  exact absurd hon (by decide)

end VfsReferences
