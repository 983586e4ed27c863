import Mathlib.Data.List.DropRight
import SalernosKernel.TmpfsInsert

/-! # Creating what a path names

`com_fs_vfs_create_any` of `com/fs/vfs.c`: a path that is not found is looked up again without its
last component, and the vnode is created in what is found then. -/
namespace VfsCreate

open Vfs VfsLookup VfsSymlinks TmpfsInsert PathResolution List

def kstrpathpenult (path : Bytes) : Bytes × Bytes :=
  let s := path.rdropWhile (· = slash)
  -- `end` is the last slash of what is left
  ((s.rdropWhile (· ≠ slash)).dropLast, s.rtakeWhile (· ≠ slash))

def comFsTmpfsCreate (t : Tree) (dir : ℕ) (name : Bytes) (new : ℕ) (hnew : Unused t new) :
    Option Tree :=
  createCommon t dir name .file [] new hnew

def comFsTmpfsMkdir (t : Tree) (dir : ℕ) (name : Bytes) (new : ℕ) (hnew : Unused t new) :
    Option Tree :=
  createCommon t dir name .dir [] new hnew

def comFsTmpfsMksocket (t : Tree) (dir : ℕ) (name : Bytes) (new : ℕ) (hnew : Unused t new) :
    Option Tree :=
  createCommon t dir name .socket [] new hnew

inductive CreateHandler where
  | create
  | mkdir
  | mksocket
  deriving DecidableEq

def CreateHandler.call : CreateHandler → (t : Tree) → ℕ → Bytes → (new : ℕ) → Unused t new →
    Option Tree
  | .create => comFsTmpfsCreate
  | .mkdir => comFsTmpfsMkdir
  | .mksocket => comFsTmpfsMksocket

def CreateHandler.type : CreateHandler → VnodeType
  | .create => .file
  | .mkdir => .dir
  | .mksocket => .socket

inductive Resolved where
  | done (r : Except Errno ℕ)
  | make (dir : ℕ) (name : Bytes)

def resolveCreate (t : Tree) (wild : Option ℕ) (path : Bytes) (root : ℕ) (cwd : Option ℕ)
    (errIfPresent follow : Bool) : Resolved :=
  match (comFsVfsLookup t wild path root cwd follow).1 with
  | .ok v => .done (if errIfPresent then .error .EEXIST else .ok v)
  | .error _ =>
    let (penult, name) := kstrpathpenult path
    match (comFsVfsLookup t wild penult root cwd true).1 with
    | .error e => .done (.error e)
    | .ok dir => .make dir name

/-- The result and the tree; there is none if the assertion of `create_common` fails. -/
def comFsVfsCreateAny (t : Tree) (wild : Option ℕ) (path : Bytes) (root : ℕ) (cwd : Option ℕ)
    (errIfPresent follow : Bool) (handler : CreateHandler) (new : ℕ) (hnew : Unused t new) :
    Option (Except Errno ℕ × Tree) :=
  match resolveCreate t wild path root cwd errIfPresent follow with
  | .done r => some (r, t)
  | .make dir name => (handler.call t dir name new hnew).map fun t' => (.ok new, t')

theorem CreateHandler.call_eq (handler : CreateHandler) (t : Tree) (dir : ℕ) (name : Bytes)
    (new : ℕ) (hnew : Unused t new) :
    handler.call t dir name new hnew = createCommon t dir name handler.type [] new hnew := by
  cases handler <;> rfl

theorem CreateHandler.type_ne_link (handler : CreateHandler) : handler.type ≠ .link := by
  cases handler <;> decide

theorem resolveCreate_make {t : Tree} {wild : Option ℕ} {path name : Bytes} {root dir : ℕ}
    {cwd : Option ℕ} {errIfPresent follow : Bool}
    (h : resolveCreate t wild path root cwd errIfPresent follow = .make dir name) :
    (∀ v, (comFsVfsLookup t wild path root cwd follow).1 ≠ .ok v) ∧
      (comFsVfsLookup t wild (kstrpathpenult path).1 root cwd true).1 = .ok dir ∧
      name = (kstrpathpenult path).2 := by
  unfold resolveCreate at h
  split at h
  · cases h
  · next e hlu =>
    dsimp only at h
    split at h
    · cases h
    · next d hpenult =>
      cases h
      exact ⟨by simp [hlu], hpenult, rfl⟩

variable {t : Tree} {path name : Bytes} {root cwd v dir : ℕ} {follow : Bool}

theorem penult_spec (h : components slash path ≠ []) :
    ∃ seps, (∀ c ∈ seps, c = slash) ∧ slash ∉ (kstrpathpenult path).2 ∧
      (kstrpathpenult path).2 ≠ [] ∧
      (path = (kstrpathpenult path).2 ++ seps ∧ (kstrpathpenult path).1 = [] ∨
        path = (kstrpathpenult path).1 ++ slash :: ((kstrpathpenult path).2 ++ seps)) := by
  have hpt : path.rdropWhile (· = slash) ++ path.rtakeWhile (· = slash) = path :=
    rdropWhile_append_rtakeWhile
  have hsp : ∀ c ∈ path.rtakeWhile (· = slash), c = slash := fun c hc => by
    simpa using mem_rtakeWhile_imp hc
  have hne : path.rdropWhile (· = slash) ≠ [] := fun hnl => h <| by
    rw [hnl, nil_append] at hpt
    have hcm := components_seps_append hsp []
    rwa [append_nil, hpt, components_nil] at hcm
  have hls := rdropWhile_last_not _ _ hne
  have hs : (path.rdropWhile (· = slash)).rdropWhile (· ≠ slash) ++
      (path.rdropWhile (· = slash)).rtakeWhile (· ≠ slash) = path.rdropWhile (· = slash) :=
    rdropWhile_append_rtakeWhile
  refine ⟨path.rtakeWhile (· = slash), hsp, fun hme => ?_, fun hnl => ?_, ?_⟩
  · simpa using mem_rtakeWhile_imp hme
  · exact absurd (rtakeWhile_eq_nil_iff.mp hnl hne) (by simpa using hls)
  · by_cases hnl : (path.rdropWhile (· = slash)).rdropWhile (· ≠ slash) = []
    · refine .inl ⟨?_, by rw [kstrpathpenult, hnl, dropLast_nil]⟩
      rw [hnl, nil_append] at hs
      rw [kstrpathpenult, hs, hpt]
    · -- what is not dropped ends with the last slash
      have hsl := rdropWhile_last_not _ _ hnl
      have hspl := dropLast_append_getLast hnl
      rw [show ((path.rdropWhile (· = slash)).rdropWhile (· ≠ slash)).getLast hnl = slash by
        simpa using hsl] at hspl
      refine .inr ?_
      calc path = path.rdropWhile (· = slash) ++ path.rtakeWhile (· = slash) := hpt.symm
        _ = (path.rdropWhile (· = slash)).rdropWhile (· ≠ slash) ++
            (path.rdropWhile (· = slash)).rtakeWhile (· ≠ slash) ++
              path.rtakeWhile (· = slash) := by rw [hs]
        _ = _ := by
          rw [← hspl]
          simp [kstrpathpenult]

theorem components_penult (h : components slash path ≠ []) :
    components slash path = components slash (kstrpathpenult path).1 ++ [(kstrpathpenult path).2] := by
  obtain ⟨seps, hsp, hfr, hne, hcs⟩ := penult_spec h
  have hnm : components slash ((kstrpathpenult path).2 ++ seps) = [(kstrpathpenult path).2] := by
    cases seps with
    | nil => rw [append_nil, components_of_not_mem hfr hne]
    | cons c seps =>
      obtain rfl := hsp c (by simp)
      have hsp' : ∀ x ∈ seps, x = slash := fun x hx => hsp x (mem_cons_of_mem slash hx)
      have hrs := components_seps_append hsp' []
      rw [append_nil, components_nil] at hrs
      rw [components_append_sep, components_of_not_mem hfr hne, hrs, append_nil]
  rcases hcs with ⟨hpt, hnl⟩ | hpt
  · rw [hnl, components_nil, nil_append, ← hnm, ← hpt]
  · rw [← hnm, ← components_append_sep, ← hpt]

theorem start_penult (root cwd : ℕ) (h : components slash path ≠ []) :
    start (kstrpathpenult path).1 root cwd = start path root cwd ∨
      start (kstrpathpenult path).1 root cwd = cwd ∧ start path root cwd = root ∧
        components slash (kstrpathpenult path).1 = [] := by
  obtain ⟨seps, -, hfr, hne, ⟨hpt, hnl⟩ | hpt⟩ := penult_spec h
  · left
    rw [hnl]
    conv_rhs => rw [hpt, start_append_left hne]
    cases hnm : (kstrpathpenult path).2 with
    | nil => exact absurd hnm hne
    | cons c name =>
      have hc : c ≠ slash := fun hc => hfr (by simp [hnm, hc])
      simp [start, hc]
  · by_cases hnl : (kstrpathpenult path).1 = []
    · right
      rw [hnl] at hpt ⊢
      refine ⟨by simp [start], ?_, components_nil⟩
      rw [hpt]
      rfl
    · left
      conv_rhs => rw [hpt, start_append_left hnl]

theorem rounds_append {l : List Bytes} {x : ℕ} (h : rounds t true root v l = some x) :
    ∃ root', ∀ must r, r ≠ [] ∨ must = true →
      rounds t must root v (l ++ r) = rounds t must root' x r := by
  induction l generalizing root v with
  | nil =>
    cases h
    exact ⟨root, fun _ _ _ => rfl⟩
  | cons name l ih =>
    rw [rounds] at h
    simp only [cons_append, rounds]
    by_cases hdo : name = dot
    · simp only [if_pos hdo] at h ⊢
      exact ih h
    · simp only [if_neg hdo] at h ⊢
      cases hlu : (lookupComponent t v name).1 with
      | error e =>
        rw [hlu] at h
        cases h
      | ok found =>
        simp only [hlu, Bool.true_eq_false, and_false, if_false] at h ⊢
        by_cases hlk : (t.node found.2).type = .link
        · rw [if_pos hlk] at h
          obtain ⟨y, hy, hx⟩ := Option.bind_eq_some_iff.mp h
          obtain ⟨root', hroo'⟩ := ih hx
          refine ⟨root', fun must r hr => ?_⟩
          have hgo : ¬ (l ++ r = [] ∧ must = false) := by
            rcases hr with hr | hr <;> simp [hr]
          rw [if_pos hlk, if_neg hgo, hy, Option.bind_some, hroo' must r hr]
        · simp only [if_neg hlk] at h ⊢
          exact ih h

theorem parent_type {d : ℕ} (h : (t.node d).type = .dir) :
    (t.node ((t.node d).parent.getD d)).type = .dir := by
  cases hp : (t.node d).parent with
  | none => exact h
  | some p => exact t.parent d p hp

theorem dotdot_found (h : (t.node v).type = .dir) :
    ∃ r, (lookupComponent t v dotdot).1 = .ok r ∧ (t.node r.2).type = .dir := by
  have htp : (t.node (top t v)).type = .dir := by
    refine exhaust_invariant (fun v => (t.node v).type = .dir) (fun v m _ hm => ?_) _ h
    unfold Tree.above at hm
    split at hm
    · exact (t.mountpoint _ _ hm).2
    · cases hm
  refine ⟨_, by rw [lookupComponent_eq, lookupDir, if_pos rfl, if_neg (not_not.mpr htp), child,
    if_pos rfl]; rfl, ?_⟩
  rw [descend_fst_snd]
  exact exhaust_over_type (parent_type htp) _

theorem ne_dots_of_rounds {must : Bool} (hv : (t.node v).type = .dir)
    (h : rounds t must root v [name] = none) : name ≠ dot ∧ name ≠ dotdot := by
  rw [rounds] at h
  refine ⟨fun hdo => ?_, fun hdt => ?_⟩
  · simp [hdo, rounds] at h
  · obtain ⟨r, hr, hty⟩ := dotdot_found hv
    rw [hdt, if_neg (by decide), hr] at h
    simp [hty, rounds] at h

theorem lookup_ok_iff (wild : Option ℕ) (hroo : (t.node root).type ≠ .link)
    (hcwd : (t.node cwd).type ≠ .link) :
    (comFsVfsLookup t wild path root (some cwd) follow).1 = .ok v ↔
      rounds t (mustFollow path follow) root (start path root cwd) (components slash path) =
        some v := by
  rw [← lookupRounds_eq t wild follow (Nat.lt_succ_self _) hroo hcwd, ← comFsVfsLookup]
  cases (comFsVfsLookup t wild path root (some cwd) follow).1 <;> simp [Except.toOption]

theorem components_ne_nil (wild : Option ℕ) (hroo : (t.node root).type ≠ .link)
    (hcwd : (t.node cwd).type ≠ .link)
    (h : ∀ v, (comFsVfsLookup t wild path root (some cwd) follow).1 ≠ .ok v) :
    components slash path ≠ [] := by
  intro hnl
  refine h (start path root cwd) ((lookup_ok_iff wild hroo hcwd).mpr ?_)
  rw [hnl, rounds]

theorem ne_dotdot_of_link {d w : ℕ} (h : (lookupComponent t v name).1 = .ok (d, w))
    (hw : (t.node w).type = .link) : name ≠ dotdot ∧ d = v := by
  obtain ⟨hd, hdir, hch⟩ := lookupComponent_link h hw
  have hne : name ≠ dotdot := by
    rintro rfl
    have hty := parent_type hdir
    rw [Except.ok.inj hch, hw] at hty
    cases hty
  exact ⟨hne, hd.trans (if_neg hne)⟩

section

variable {wild : Option ℕ} {new : ℕ} {handler : CreateHandler} {hnew : Unused t new}
  {hdir : (t.node dir).type = .dir}

def created (t : Tree) (path : Bytes) (dir : ℕ) (handler : CreateHandler) (new : ℕ)
    (hnew : Unused t new) (hdir : (t.node dir).type = .dir) : Tree :=
  insert t dir (kstrpathpenult path).2 handler.type [] new hnew hdir

/-- The root has a link under the last component that leads to the new vnode once it is there. -/
def Redirected (t : Tree) (path : Bytes) (root dir : ℕ) (handler : CreateHandler) (new : ℕ)
    (hnew : Unused t new) (hdir : (t.node dir).type = .dir) : Prop :=
  ∃ link, (lookupComponent t root (kstrpathpenult path).2).1 = .ok (root, link) ∧
    (t.node link).type = .link ∧
    (vfsLookup2 (created t path dir handler new hnew hdir) root (some root) link).1 = .ok new

theorem rounds_created_of_start {s : ℕ} (hs : s ≠ new) (hroo : (t.node root).type ≠ .link)
    (hrtn : root ≠ new) (hms : Missing t dir (kstrpathpenult path).2)
    (hcm : components slash path ≠ []) {must : Bool}
    (hfl : rounds t must root s (components slash path) = none)
    (hpenult : rounds t true root s (components slash (kstrpathpenult path).1) = some dir) :
    rounds (created t path dir handler new hnew hdir) must root s (components slash path) =
      some new := by
  rw [components_penult hcm] at hfl ⊢
  obtain ⟨root', hroo'⟩ := rounds_append hpenult
  rw [hroo' must _ (.inl (cons_ne_nil _ _))] at hfl
  have hdr : dir ≠ new := ((below_self hnew).rounds hrtn hroo hs hpenult).2
  obtain ⟨hdo, hdt⟩ := ne_dots_of_rounds hdir hfl
  have hpenult' : rounds (created t path dir handler new hnew hdir) true root s
      (components slash (kstrpathpenult path).1) = some dir :=
    ((below_insert hdr).rounds hrtn hroo hs hpenult).1
  obtain ⟨root'', hroo''⟩ := rounds_append hpenult'
  have hty : ((created t path dir handler new hnew hdir).node new).type ≠ .link := by
    rw [created, insert_node_new hdr]
    exact handler.type_ne_link
  rw [hroo'' must _ (.inl (cons_ne_nil _ _)), rounds, if_neg hdo, created,
    lookupComponent_new hdr hdt hms]
  exact if_neg hty

theorem rounds_created_of_root (hrtn : root ≠ new) (hdr : dir ≠ new) (hne : root ≠ dir)
    {must : Bool} (hfl : rounds t must root root [(kstrpathpenult path).2] = none) :
    rounds (created t path dir handler new hnew hdir) must root root [(kstrpathpenult path).2] =
        some new ↔ Redirected t path root dir handler new hnew hdir := by
  have hsm : (lookupComponent (created t path dir handler new hnew hdir) root
      (kstrpathpenult path).2).1 = (lookupComponent t root (kstrpathpenult path).2).1 := by
    rw [created, lookupComponent_insert hrtn hdr, if_neg fun h => hne h.2.1]
  have hdo : (kstrpathpenult path).2 ≠ dot := fun hdo => by simp [hdo, rounds] at hfl
  rw [rounds, if_neg hdo] at hfl
  rw [rounds, if_neg hdo, hsm, Redirected]
  cases hlu : (lookupComponent t root (kstrpathpenult path).2).1 with
  | error e => simp
  | ok found =>
    obtain ⟨d, w⟩ := found
    have hwn := (lookupComponent_ne_new hnew hrtn hlu).2
    rw [hlu] at hfl
    dsimp only at hfl ⊢
    rw [show ((created t path dir handler new hnew hdir).node w).type = (t.node w).type from
      insert_type_old hwn]
    by_cases hlk : (t.node w).type = .link
    · obtain ⟨-, rfl⟩ := ne_dotdot_of_link hlu hlk
      rw [if_pos hlk] at hfl ⊢
      by_cases hmt : must = false
      · simp [hmt] at hfl
      · rw [if_neg fun h => hmt h.2]
        simp only [rounds, Option.bind_fun_some]
        constructor
        · intro hfn
          refine ⟨w, rfl, hlk, ?_⟩
          cases hrl : (vfsLookup2 (created t path dir handler new hnew hdir) d (some d) w).1 with
          | error e => simp [hrl, Except.toOption] at hfn
          | ok x => simpa [hrl, Except.toOption] using hfn
        · rintro ⟨link, heq, -, hfn⟩
          cases heq
          rw [hfn]
          rfl
    · rw [if_neg hlk] at hfl
      simp [rounds] at hfl

theorem lookup_created_iff (wild' : Option ℕ) (handler : CreateHandler) (hnew : Unused t new)
    (hdir : (t.node dir).type = .dir) (hroo : (t.node root).type ≠ .link)
    (hcwd : (t.node cwd).type ≠ .link) (hrtn : root ≠ new) (hcww : cwd ≠ new)
    (hfl : ∀ v, (comFsVfsLookup t wild path root (some cwd) follow).1 ≠ .ok v)
    (hpenult : (comFsVfsLookup t wild (kstrpathpenult path).1 root (some cwd) true).1 = .ok dir) :
    (comFsVfsLookup (created t path dir handler new hnew hdir) wild' path root (some cwd) follow).1 =
        .ok new ↔
      Missing t dir (kstrpathpenult path).2 ∧
        (start (kstrpathpenult path).1 root cwd = start path root cwd ∨
          Redirected t path root dir handler new hnew hdir) := by
  have hcm := components_ne_nil wild hroo hcwd hfl
  have hst : ∀ p, start p root cwd ≠ new := fun p => by
    unfold start
    split
    · exact hrtn
    · exact hcww
  rw [lookup_ok_iff wild hroo hcwd] at hpenult
  simp only [ne_eq, lookup_ok_iff wild hroo hcwd] at hfl
  have hno := Option.eq_none_iff_forall_ne_some.mpr hfl
  have hdr : dir ≠ new :=
    ((below_self hnew).rounds hrtn hroo (hst _) hpenult).2
  have hty : ∀ v, v ≠ new → (t.node v).type ≠ .link →
      ((created t path dir handler new hnew hdir).node v).type ≠ .link :=
    fun v hv hlk => by rwa [created, insert_type_old hv]
  rw [lookup_ok_iff wild' (hty root hrtn hroo) (hty cwd hcww hcwd)]
  by_cases hms : Missing t dir (kstrpathpenult path).2
  · simp only [hms, true_and]
    by_cases hsm : start (kstrpathpenult path).1 root cwd = start path root cwd
    · rw [hsm] at hpenult
      exact iff_of_true (rounds_created_of_start (hst path) hroo hrtn hms
        hcm hno hpenult) (.inl hsm)
    · obtain hsm' | ⟨hcw, hrt, hnl⟩ := start_penult root cwd hcm
      · exact absurd hsm' hsm
      · rw [hnl, rounds, hcw, Option.some.injEq] at hpenult
        rw [hrt, components_penult hcm, hnl, nil_append] at hno ⊢
        have hne : root ≠ dir := fun heq => hsm (by rw [hcw, hrt, hpenult, heq])
        rw [rounds_created_of_root hrtn hdr hne hno]
        exact (or_iff_right fun h => hsm (h.trans hrt.symm)).symm
  · -- the second entry with the name changes nothing
    refine iff_of_false (fun hfn => ?_) fun h => hms h.1
    have hfn' := ((insert_below hdr hms).rounds hrtn (hty root hrtn hroo)
      (hst path) hfn).1
    rw [hno] at hfn'
    cases hfn'

end

def Consistent (t : Tree) (wild wild' : Option ℕ) (path : Bytes) (root cwd : ℕ)
    (errIfPresent follow : Bool) (handler : CreateHandler) (new : ℕ) (hnew : Unused t new) : Prop :=
  ∃ r t', comFsVfsCreateAny t wild path root (some cwd) errIfPresent follow handler new hnew =
      some (r, t') ∧
    (∀ v, r = .ok v → (comFsVfsLookup t' wild' path root (some cwd) follow).1 = .ok v) ∧
    ∀ e, r = .error e → t' = t

/-- The path is there, or what comes before its last component is not, or that is a directory in
which the last component is missing and from which it is looked up. -/
def Creatable (t : Tree) (wild : Option ℕ) (path : Bytes) (root cwd : ℕ) (follow : Bool)
    (handler : CreateHandler) (new : ℕ) (hnew : Unused t new) : Prop :=
  (∃ v, (comFsVfsLookup t wild path root (some cwd) follow).1 = .ok v) ∨
    (∃ e, (comFsVfsLookup t wild (kstrpathpenult path).1 root (some cwd) true).1 = .error e) ∨
    ∃ dir, (comFsVfsLookup t wild (kstrpathpenult path).1 root (some cwd) true).1 = .ok dir ∧
      ∃ hdir : (t.node dir).type = .dir, Missing t dir (kstrpathpenult path).2 ∧
        (start (kstrpathpenult path).1 root cwd = start path root cwd ∨
          Redirected t path root dir handler new hnew hdir)

/-- Creation and lookup agree exactly for the paths that are creatable. -/
theorem create_consistent_iff (t : Tree) (wild wild' : Option ℕ) (path : Bytes) (root cwd : ℕ)
    (errIfPresent follow : Bool) (handler : CreateHandler) (new : ℕ) (hnew : Unused t new)
    (hroot : (t.node root).type ≠ .link) (hcwd : (t.node cwd).type ≠ .link)
    (hrootnew : root ≠ new) (hcwdnew : cwd ≠ new) :
    Consistent t wild wild' path root cwd errIfPresent follow handler new hnew ↔
      Creatable t wild path root cwd follow handler new hnew := by
  unfold Consistent Creatable comFsVfsCreateAny resolveCreate
  cases hlu : (comFsVfsLookup t wild path root (some cwd) follow).1 with
  | ok v =>
    refine iff_of_true ⟨_, t, rfl, fun w hw => ?_, fun _ _ => rfl⟩ (.inl ⟨v, rfl⟩)
    have hv := (lookup_ok_iff wild hroot hcwd).mp hlu
    cases errIfPresent with
    | true => simp at hw
    | false =>
      obtain rfl := Except.ok.inj hw
      exact (lookup_ok_iff wild' hroot hcwd).mpr hv
  | error e =>
    have hfl : ∀ v, (comFsVfsLookup t wild path root (some cwd) follow).1 ≠ .ok v := by
      simp [hlu]
    cases hpenult : (comFsVfsLookup t wild (kstrpathpenult path).1 root (some cwd) true).1 with
    | error e =>
      refine iff_of_true ⟨.error e, t, by simp [hpenult], by simp, by simp⟩ (.inr (.inl ⟨e, rfl⟩))
    | ok dir =>
      simp only [hpenult, CreateHandler.call_eq, createCommon]
      by_cases hdir : (t.node dir).type = .dir
      · have hif := lookup_created_iff wild' handler hnew hdir hroot hcwd hrootnew hcwdnew hfl
          hpenult
        simp only [dif_pos hdir, Option.map_some]
        constructor
        · rintro ⟨r, t', heq, hfn, -⟩
          cases heq
          exact .inr (.inr ⟨dir, rfl, hdir, hif.mp (hfn new rfl)⟩)
        · rintro (⟨v, hv⟩ | ⟨e, he⟩ | ⟨dir', heq, hdir', h⟩)
          · cases hv
          · cases he
          · cases heq
            exact ⟨_, _, rfl, fun v hv => Except.ok.inj hv ▸ hif.mpr h, by simp⟩
      · simp [hdir]

theorem nested_unused : Unused nested 6 where
  root _ _ := by simp [nested]
  mountpoint _ := by simp [nested]
  parent v := by
    rcases v with _ | _ | _ | _ | _ | v <;> simp [nested]
  entry v e he := by
    rcases v with _ | _ | _ | _ | _ | v <;> simp [nested] at he
    · rcases he with rfl | rfl | rfl <;> simp
    · rcases he with rfl | rfl <;> simp

theorem create_consistent_file : (nested.node 0).type ≠ .link ∧ (nested.node 3).type ≠ .link ∧
    Consistent nested none none [120] 0 3 false true .create 6 nested_unused := by
  have hroo : (nested.node 0).type ≠ .link := by decide
  have hcwd : (nested.node 3).type ≠ .link := by decide
  refine ⟨hroo, hcwd, (create_consistent_iff nested none none [120] 0 3 false true .create 6
    nested_unused hroo hcwd (by decide) (by decide)).mpr ?_⟩
  exact .inr (.inr ⟨3, rfl, rfl, rfl, .inl rfl⟩)

/-- From `d`, the path `/x` is made in `d`; `d/c/x`, below a file, fails the assertion; and with `d`
as the root `/e`, a link that leads nowhere, gets a second entry. -/
theorem create_inconsistent :
    comFsVfsCreateAny nested none [47, 120] 0 (some 3) true true .create 6 nested_unused =
        some (.ok 6, created nested [47, 120] 3 .create 6 nested_unused rfl) ∧
      (comFsVfsLookup (created nested [47, 120] 3 .create 6 nested_unused rfl) none [47, 120] 0
        (some 3) true).1 = .error .ENOENT ∧
      comFsVfsCreateAny nested none [100, 47, 99, 47, 120] 0 (some 0) true true .create 6
        nested_unused = none ∧
      comFsVfsCreateAny nested none [47, 101] 3 (some 3) true true .create 6 nested_unused =
        some (.ok 6, created nested [47, 101] 3 .create 6 nested_unused rfl) ∧
      (comFsVfsLookup (created nested [47, 101] 3 .create 6 nested_unused rfl) none [47, 101] 3
        (some 3) true).1 = .error .ENOENT :=
  ⟨rfl, rfl, rfl, rfl, rfl⟩

end VfsCreate
