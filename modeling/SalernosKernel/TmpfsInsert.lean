import SalernosKernel.VfsSymlinks

/-! # New entries of tmpfs directories

`create_common` and the insertion after it, and what a lookup finds once there is one more entry:
what it found before, and the new vnode where the entry was missing. -/
namespace TmpfsInsert

open Vfs VfsLookup VfsSymlinks PathResolution

structure Unused (t : Tree) (new : ℕ) : Prop where
  root : ∀ f < t.numVfs, (t.vfs f).root ≠ new
  mountpoint : ∀ f, (t.vfs f).mountpoint ≠ some new
  parent : ∀ v, (t.node v).parent ≠ some new
  entry : ∀ v, ∀ e ∈ (t.node v).entries, e.2 ≠ new

def insert (t : Tree) (dir : ℕ) (name : Bytes) (type : VnodeType) (link : Bytes) (new : ℕ)
    (hnew : Unused t new) (hdir : (t.node dir).type = .dir) : Tree where
  node v :=
    if v = dir then { t.node dir with entries := (t.node dir).entries ++ [(name, new)] }
    else if v = new then ⟨type, (t.node dir).vfs, none, false, some dir, [], link⟩
    else t.node v
  vfs := t.vfs
  numVfs := t.numVfs
  mounted v f h := by
    split_ifs at h ⊢ with hd hn
    · exact hd ▸ t.mounted dir f h
    · exact t.mounted v f h
  root f hf := by
    have hne := hnew.root f hf
    split_ifs with hd
    · exact hd ▸ t.root f hf
    · exact t.root f hf
  mountpoint f v h := by
    have hne : v ≠ new := fun heq => hnew.mountpoint f (heq ▸ h)
    split_ifs with hd
    · exact hd ▸ t.mountpoint f v h
    · exact t.mountpoint f v h
  parent v p h := by
    have hold : ∀ u, (t.node u).parent = some p →
        (if p = dir then { t.node dir with entries := (t.node dir).entries ++ [(name, new)] }
          else if p = new then ⟨type, (t.node dir).vfs, none, false, some dir, [], link⟩
          else t.node p).type = .dir := by
      intro u hu
      have hne : p ≠ new := fun heq => hnew.parent u (heq ▸ hu)
      split_ifs with hd
      · exact hdir
      · exact t.parent u p hu
    split_ifs at h with hd hn
    · exact hold dir h
    · cases h
      rw [if_pos rfl]
      exact hdir
    · exact hold v h
  bound v := by
    split_ifs
    · exact t.bound dir
    · exact t.bound dir
    · exact t.bound v

def createCommon (t : Tree) (dir : ℕ) (name : Bytes) (type : VnodeType) (link : Bytes) (new : ℕ)
    (hnew : Unused t new) : Option Tree :=
  if hdir : (t.node dir).type = .dir then some (insert t dir name type link new hnew hdir) else none

section

variable {t : Tree} {dir new : ℕ} {name : Bytes} {type : VnodeType} {link : Bytes}
  {hnew : Unused t new} {hdir : (t.node dir).type = .dir} {v : ℕ} {n : Bytes}

theorem insert_node_old (hv : v ≠ new) : (insert t dir name type link new hnew hdir).node v =
    { t.node v with entries := (t.node v).entries ++ if v = dir then [(name, new)] else [] } := by
  unfold insert
  by_cases hd : v = dir
  · simp [hd]
  · simp [hd, hv]

theorem insert_type_old (hv : v ≠ new) :
    ((insert t dir name type link new hnew hdir).node v).type = (t.node v).type := by
  rw [insert_node_old hv]

theorem insert_node_new (hne : dir ≠ new) : (insert t dir name type link new hnew hdir).node new =
    ⟨type, (t.node dir).vfs, none, false, some dir, [], link⟩ := by
  simp [insert, hne.symm]

theorem unused_insert (hv : Unused t v) (hdv : dir ≠ v) (hne : new ≠ v) :
    Unused (insert t dir name type link new hnew hdir) v where
  root := hv.root
  mountpoint := hv.mountpoint
  parent u := by
    simp only [insert]
    split_ifs with hd hn
    · exact hv.parent dir
    · simpa using hdv
    · exact hv.parent u
  entry u e he := by
    simp only [insert] at he
    split_ifs at he with hd hn
    · rcases List.mem_append.mp he with hold | had
      · exact hv.entry dir e hold
      · rw [List.mem_singleton.mp had]
        exact hne
    · cases he
    · exact hv.entry u e he

theorem above_insert (hv : v ≠ new) :
    (insert t dir name type link new hnew hdir).above v = t.above v := by
  simp only [Tree.above, insert_node_old hv]
  rfl

theorem over_insert (hv : v ≠ new) :
    (insert t dir name type link new hnew hdir).over v = t.over v := by
  simp only [Tree.over, insert_node_old hv]
  rfl

theorem over_insert_new (hne : dir ≠ new) :
    (insert t dir name type link new hnew hdir).over new = none := by
  simp [Tree.over, insert_node_new hne]

theorem Unused.above (hnew : Unused t new) {m : ℕ} (h : t.above v = some m) : m ≠ new := by
  unfold Tree.above at h
  split at h
  · exact fun heq => hnew.mountpoint _ (heq ▸ h)
  · cases h

theorem Unused.over (hnew : Unused t new) {r : ℕ} (h : t.over v = some r) : r ≠ new := by
  obtain ⟨f, hf, rfl⟩ := Option.map_eq_some_iff.mp h
  exact hnew.root f (t.mounted v f hf).2.1

theorem lookupDir_ne_new (hnew : Unused t new) (hv : v ≠ new) (n : Bytes) :
    lookupDir t v n ≠ new := by
  unfold lookupDir top
  split
  · exact exhaust_invariant (· ≠ new) (fun _ _ _ => hnew.above) _ hv
  · exact hv

theorem lookupDir_insert (hv : v ≠ new) (n : Bytes) :
    lookupDir (insert t dir name type link new hnew hdir) v n = lookupDir t v n := by
  unfold lookupDir top
  split
  · exact exhaust_congr (· ≠ new) (fun _ _ _ => hnew.above) (fun _ => above_insert) _ hv
  · rfl

theorem descend_ne_new (hnew : Unused t new) {d w : ℕ} (hd : d ≠ new) (hw : w ≠ new) (fuel : ℕ) :
    (descend t fuel d w).1.1 ≠ new ∧ (descend t fuel d w).1.2 ≠ new := by
  induction fuel generalizing d w with
  | zero => exact ⟨hd, hw⟩
  | succ fuel ih =>
    simp only [descend]
    cases hov : t.over w with
    | none => exact ⟨hd, hw⟩
    | some r => exact ih hw (hnew.over hov)

theorem descend_insert {d w : ℕ} (hw : w ≠ new) (fuel : ℕ) :
    (descend (insert t dir name type link new hnew hdir) fuel d w).1 = (descend t fuel d w).1 := by
  induction fuel generalizing d w with
  | zero => rfl
  | succ fuel ih =>
    simp only [descend, over_insert hw]
    cases hov : t.over w with
    | none => rfl
    | some r => exact ih (hnew.over hov)

theorem child_ne_new (hnew : Unused t new) {d w : ℕ} (hd : d ≠ new) (h : child t d n = .ok w) :
    w ≠ new := by
  unfold child at h
  split at h
  · cases hpa : (t.node d).parent with
    | none =>
      rw [hpa] at h
      cases h
      exact hd
    | some p =>
      rw [hpa] at h
      cases h
      exact fun heq => hnew.parent d (heq ▸ hpa)
  · split at h
    · next entry hfd =>
      cases h
      exact hnew.entry d entry (List.mem_of_find?_eq_some hfd)
    · cases h

def Missing (t : Tree) (dir : ℕ) (name : Bytes) : Prop :=
  (t.node dir).entries.find? (·.1 = name) = none
  deriving Decidable

theorem child_insert {d : ℕ} (hd : d ≠ new) (n : Bytes) :
    child (insert t dir name type link new hnew hdir) d n =
      if n ≠ dotdot ∧ d = dir ∧ n = name ∧ Missing t dir name then .ok new else child t d n := by
  unfold child
  rw [insert_node_old hd]
  by_cases hdt : n = dotdot
  · simp [hdt]
  · simp only [hdt, if_false, ne_eq, not_false_iff, true_and, List.find?_append]
    by_cases hsm : d = dir ∧ n = name
    · obtain ⟨rfl, rfl⟩ := hsm
      by_cases hms : Missing t d n
      · have hfd : (t.node d).entries.find? (fun e => decide (e.1 = n)) = none := hms
        simp [hms, hfd]
      · cases hfd : (t.node d).entries.find? (fun e => decide (e.1 = n)) with
        | none => exact absurd hfd hms
        | some entry => simp [hms]
    · have hno : (if d = dir then [(name, new)] else []).find? (fun e => decide (e.1 = n)) =
          none := by
        split_ifs with hdd
        · have hnn : ¬ name = n := fun hn => hsm ⟨hdd, hn.symm⟩
          simp [hnn]
        · rfl
      have hnt : ¬ (d = dir ∧ n = name ∧ Missing t dir name) := fun h => hsm ⟨h.1, h.2.1⟩
      rw [hno, Option.or_none, if_neg hnt]

theorem lookupComponent_insert (hv : v ≠ new) (hne : dir ≠ new) (n : Bytes) :
    (lookupComponent (insert t dir name type link new hnew hdir) v n).1 =
      if n ≠ dotdot ∧ v = dir ∧ n = name ∧ Missing t dir name then .ok (dir, new)
      else (lookupComponent t v n).1 := by
  have hold := lookupDir_ne_new hnew hv n
  rw [lookupComponent_eq, lookupComponent_eq, lookupDir_insert hv, insert_type_old hold,
    child_insert hold]
  have hds : n ≠ dotdot → lookupDir t v n = v := fun hn => if_neg hn
  by_cases hnw : n ≠ dotdot ∧ v = dir ∧ n = name ∧ Missing t dir name
  · have hnw' : n ≠ dotdot ∧ lookupDir t v n = dir ∧ n = name ∧ Missing t dir name := by
      rw [hds hnw.1]
      exact hnw
    have hty : ¬ (t.node (lookupDir t v n)).type ≠ .dir := by simp [hnw'.2.1, hdir]
    rw [if_pos hnw, if_pos hnw', if_neg hty, hnw'.2.1]
    exact congrArg Except.ok (congrArg Prod.fst (descend_of_none (over_insert_new hne) _))
  · have hnw' : ¬ (n ≠ dotdot ∧ lookupDir t v n = dir ∧ n = name ∧ Missing t dir name) :=
      fun h => hnw (by rw [hds h.1] at h; exact h)
    rw [if_neg hnw, if_neg hnw']
    by_cases hty : (t.node (lookupDir t v n)).type ≠ .dir
    · rw [if_pos hty, if_pos hty]
    · rw [if_neg hty, if_neg hty]
      cases hch : child t (lookupDir t v n) n with
      | error e => rfl
      | ok w => exact congrArg Except.ok (descend_insert (child_ne_new hnew hold hch) _)

theorem lookupComponent_ne_new (hnew : Unused t new) (hv : v ≠ new) {r : ℕ × ℕ}
    (h : (lookupComponent t v n).1 = .ok r) : r.1 ≠ new ∧ r.2 ≠ new := by
  have hold := lookupDir_ne_new hnew hv n
  rw [lookupComponent_eq] at h
  split at h
  · cases h
  · cases hch : child t (lookupDir t v n) n with
    | error e =>
      rw [hch] at h
      cases h
    | ok w =>
      rw [hch] at h
      cases h
      exact descend_ne_new hnew hold (child_ne_new hnew hold hch) _

end

structure Below (t t' : Tree) (old : ℕ → Prop) : Prop where
  type : ∀ v, old v → (t'.node v).type = (t.node v).type
  link : ∀ v, old v → (t'.node v).link = (t.node v).link
  component : ∀ v n r, old v → (lookupComponent t v n).1 = .ok r →
    (lookupComponent t' v n).1 = .ok r ∧ old r.1 ∧ old r.2

def EndsIn (old : ℕ → Prop) : Walk → Prop
  | .done x => old x
  | .link d w _ => old d ∧ old w

namespace Below

variable {t t' : Tree} {old : ℕ → Prop} {root dir link v x : ℕ} {names : List Bytes}

section

variable (h : Below t t' old)

include h

theorem walk (hv : old v) {r : Walk} (hr : walk t v names = .ok r) :
    walk t' v names = .ok r ∧ EndsIn old r := by
  induction names generalizing v with
  | nil =>
    cases hr
    exact ⟨rfl, hv⟩
  | cons name names ih =>
    rw [walk] at hr ⊢
    split at hr
    · next hdo =>
      rw [if_pos hdo]
      exact ih hv hr
    · next hdo =>
      rw [if_neg hdo]
      split at hr
      · cases hr
      · next d w hlu =>
        obtain ⟨hlu', hd, hw⟩ := h.component v name (d, w) hv hlu
        rw [hlu']
        dsimp only
        rw [h.type w hw]
        split at hr
        · next hlk =>
          cases hr
          rw [if_pos hlk]
          exact ⟨rfl, hd, hw⟩
        · next hlk =>
          rw [if_neg hlk]
          exact ih hw hr

theorem posixWalk (hv : old v) {r : Walk}
    (hr : posixWalk t v names = some r) :
    posixWalk t' v names = some r ∧ EndsIn old r := by
  rw [posixWalk_eq] at hr ⊢
  cases hwk : VfsLookup.walk t v names with
  | error e => simp [hwk, Except.toOption] at hr
  | ok r' =>
    rw [hwk] at hr
    cases hr
    obtain ⟨hwk', hold⟩ := h.walk hv hwk
    exact ⟨by rw [hwk']; rfl, hold⟩

theorem chain (hrt : old root) {n : ℕ} {cut : List Bytes}
    (hcn : Chain t root dir link n v cut) (hdir : old dir) (hlk : old link) :
    Chain t' root dir link n v cut ∧ old v := by
  have hst : ∀ dir link, old dir → old link →
      origin t' root dir link = origin t root dir link ∧ old (origin t root dir link) ∧
        target t' link = target t link := by
    intro dir link hdir hlk
    refine ⟨by rw [origin, origin, h.link link hlk], ?_, by rw [target, target, h.link link hlk]⟩
    unfold origin start
    split
    · exact hrt
    · exact hdir
  induction hcn with
  | @last dir link v hwk =>
    obtain ⟨hor, hold, htr⟩ := hst dir link hdir hlk
    obtain ⟨hwk', hv⟩ := h.posixWalk hold hwk
    exact ⟨.last (by rw [hor, htr, hwk']), hv⟩
  | @next dir link dir' link' n v rest cut hwk _ ih =>
    obtain ⟨hor, hold, htr⟩ := hst dir link hdir hlk
    obtain ⟨hwk', hdir', hlk'⟩ := h.posixWalk hold hwk
    obtain ⟨hcn', hv⟩ := ih hdir' hlk'
    exact ⟨.next (by rw [hor, htr, hwk']) hcn', hv⟩

theorem vfsLookup2 (hrt : old root) (hdir : old dir) (hlk : old link)
    (hrtt : (t.node root).type ≠ .link) (hdr : (t.node dir).type ≠ .link)
    (hln : (t.node link).type = .link)
    (hx : (vfsLookup2 t root (some dir) link).1.toOption = some x) :
    (vfsLookup2 t' root (some dir) link).1.toOption = some x ∧ old x := by
  rw [vfsLookup2_eq_some_iff hrtt hdr hln] at hx
  obtain ⟨n, hn, cut, hcn⟩ := hx
  obtain ⟨hcn', hold⟩ := h.chain hrt hcn hdir hlk
  rw [← h.type root hrt] at hrtt
  rw [← h.type dir hdir] at hdr
  rw [← h.type link hlk] at hln
  exact ⟨(vfsLookup2_eq_some_iff hrtt hdr hln).mpr ⟨n, hn, cut, hcn'⟩, hold⟩

theorem rounds {must : Bool} (hrt : old root)
    (hrtt : (t.node root).type ≠ .link) (hv : old v)
    (hx : rounds t must root v names = some x) :
    rounds t' must root v names = some x ∧ old x := by
  induction names generalizing root v with
  | nil =>
    cases hx
    exact ⟨rfl, hv⟩
  | cons name names ih =>
    rw [rounds] at hx ⊢
    by_cases hdo : name = dot
    · rw [if_pos hdo] at hx ⊢
      exact ih hrt hrtt hv hx
    · rw [if_neg hdo] at hx ⊢
      cases hlu : (lookupComponent t v name).1 with
      | error e =>
        rw [hlu] at hx
        cases hx
      | ok r =>
        obtain ⟨d, w⟩ := r
        obtain ⟨hlu', hd, hw⟩ := h.component v name (d, w) hv hlu
        rw [hlu] at hx
        rw [hlu']
        dsimp only at hx ⊢
        rw [h.type w hw]
        by_cases hlk : (t.node w).type = .link
        · rw [if_pos hlk] at hx ⊢
          by_cases hls : names = [] ∧ must = false
          · rw [if_pos hls] at hx ⊢
            cases hx
            exact ⟨rfl, hw⟩
          · rw [if_neg hls] at hx ⊢
            obtain ⟨y, hy, hx⟩ := Option.bind_eq_some_iff.mp hx
            have hdy : (t.node d).type ≠ .link := by
              simp [(lookupComponent_link hlu hlk).2.1]
            obtain ⟨hy', hyl⟩ := h.vfsLookup2 hrt hd hw hrtt hdy hlk hy
            rw [hy', Option.bind_some]
            exact ih hyl (vfsLookup2_type hy) hyl hx
        · rw [if_neg hlk] at hx ⊢
          exact ih hrt hrtt hw hx

end

end Below

section

variable {t : Tree} {dir new : ℕ} {name : Bytes} {type : VnodeType} {link : Bytes}
  {hnew : Unused t new} {hdir : (t.node dir).type = .dir} {v : ℕ} {n : Bytes}

theorem lookupComponent_missing (hn : n ≠ dotdot) (h : Missing t v n) (r : ℕ × ℕ) :
    (lookupComponent t v n).1 ≠ .ok r := by
  have hch : child t v n = .error .ENOENT := by
    have hfd : (t.node v).entries.find? (fun e => decide (e.1 = n)) = none := h
    simp [child, hn, hfd]
  rw [lookupComponent_eq, show lookupDir t v n = v from if_neg hn, hch]
  split_ifs
  · exact fun h => by cases h
  · exact fun h => by cases h

theorem below_self (hnew : Unused t new) : Below t t (· ≠ new) where
  type _ _ := rfl
  link _ _ := rfl
  component _ _ _ hv hr := ⟨hr, lookupComponent_ne_new hnew hv hr⟩

theorem below_insert (hne : dir ≠ new) :
    Below t (insert t dir name type link new hnew hdir) (· ≠ new) where
  type v hv := insert_type_old hv
  link v hv := by rw [insert_node_old hv]
  component v n r hv hr := by
    rw [lookupComponent_insert hv hne, if_neg]
    · exact ⟨hr, lookupComponent_ne_new hnew hv hr⟩
    · rintro ⟨hn, rfl, rfl, hms⟩
      exact lookupComponent_missing hn hms r hr

theorem insert_below (hne : dir ≠ new) (hpr : ¬ Missing t dir name) :
    Below (insert t dir name type link new hnew hdir) t (· ≠ new) where
  type v hv := (insert_type_old hv).symm
  link v hv := by rw [insert_node_old hv]
  component v n r hv hr := by
    rw [lookupComponent_insert hv hne, if_neg fun h => hpr h.2.2.2] at hr
    exact ⟨hr, lookupComponent_ne_new hnew hv hr⟩

theorem lookupComponent_new (hne : dir ≠ new) (hnm : name ≠ dotdot) (h : Missing t dir name) :
    (lookupComponent (insert t dir name type link new hnew hdir) dir name).1 = .ok (dir, new) := by
  rw [lookupComponent_insert hne hne, if_pos ⟨hnm, rfl, rfl, h⟩]

end

end TmpfsInsert
