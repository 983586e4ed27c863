import SalernosKernel.Initrd
import SalernosKernel.TmpfsFileCalls
import SalernosKernel.VfsCreate

/-! # Extracting the initial ramdisk

What `com_fs_initrd_make` does with the entries it visits, from a directory of a tmpfs on. The
vnodes are numbered in the order in which they are allocated. -/
namespace InitrdExtract

open Initrd PathResolution TmpfsFile TmpfsInsert Vfs VfsLookup List
open Function

structure Fs where
  tree : Tree
  files : ℕ → TmpfsFile.Node
  next : ℕ
  unused : ∀ v, next ≤ v → Unused tree v

/-- A new vnode with its entry; there is none if the assertion of `create_common` fails. -/
def Fs.createCommon (fs : Fs) (dir : ℕ) (name : Bytes) (type : VnodeType) (link : Bytes) :
    Option Fs :=
  if hdir : (fs.tree.node dir).type = .dir then
    some {
      tree := insert fs.tree dir name type link fs.next (fs.unused _ (Nat.le_refl _)) hdir
      files := fs.files
      next := max dir fs.next + 1
      unused := fun v hv => unused_insert (fs.unused v (by omega)) (by omega) (by omega) }
  else none

def Fs.setFile (fs : Fs) (v : ℕ) (node : TmpfsFile.Node) : Fs :=
  { fs with files := update fs.files v node }

def comFsTmpfsMkdir (fs : Fs) (dir : ℕ) (name : Bytes) : Option Fs :=
  fs.createCommon dir name .dir []

def comFsTmpfsCreate (fs : Fs) (dir : ℕ) (name : Bytes) : Option (Fs × ℕ) :=
  (fs.createCommon dir name .file []).map fun fs' => (fs'.setFile fs.next newFile, fs.next)

inductive Content where
  | file (bytes : Bytes)
  | dir
  | link (target : Bytes)
  deriving DecidableEq

def joined : List Bytes → Bytes
  | [] => []
  | [name] => name
  | name :: name' :: names => name ++ slash :: joined (name' :: names)

structure Proper (name : Bytes) : Prop where
  ne_nil : name ≠ []
  slash_notMem : slash ∉ name
  zero_notMem : 0 ∉ name
  ne_dot : name ≠ dot
  ne_dotdot : name ≠ dotdot

structure Item where
  record : Record
  names : List Bytes
  dotted : Bool
  slashed : Bool
  target : Bytes
  proper : ∀ n ∈ names, Proper n
  kind : type record.block ∈ [0, 48, GNUTAR_DIR, GNUTAR_SYMLINK]
  root_dir : names = [] → type record.block = GNUTAR_DIR
  slash_dir : slashed = true → type record.block = GNUTAR_DIR
  terminated : type record.block = GNUTAR_SYMLINK →
    0 ∉ target ∧ target ++ [0] <+: (record.block.drop 157).take 100

namespace Item

variable (i : Item)

def content : Content :=
  if type i.record.block = GNUTAR_DIR then .dir
  else if type i.record.block = GNUTAR_SYMLINK then .link i.target
  else .file i.record.data

def parts : List Bytes := if i.dotted ∨ i.names = [] then dot :: i.names else i.names

def path : Bytes := joined i.parts ++ if i.slashed then [slash] else []

def Stored : Prop :=
  i.path.length ≤ 100 ∧ name i.record.block = i.path ++ replicate (100 - i.path.length) 0

end Item

def ParentListed (before : List Item) (i : Item) : Prop :=
  i.names.dropLast = [] ∨ ∃ j ∈ before, j.names = i.names.dropLast ∧ j.content = .dir

def Listed : List Item → List Item → Prop
  | _, [] => True
  | before, i :: items => ParentListed before i ∧ Listed (before ++ [i]) items

structure Ustar where
  items : List Item
  rest : Bytes
  stored : ∀ i ∈ items, i.Stored
  distinct : (items.map Item.names).Nodup
  listed : Listed [] items
  fits : (items.flatMap fun i => i.record.bytes).length + 512 + rest.length < 2 ^ 64

def Ustar.tar (a : Ustar) : Bytes :=
  (a.items.flatMap fun i => i.record.bytes) ++ (zeroBlock ++ a.rest)

inductive Leads (t : Tree) (root : ℕ) : List Bytes → ℕ → Prop where
  | root : Leads t root [] root
  | entry {names : List Bytes} {d v : ℕ} {n : Bytes} (h : Leads t root names d)
      (hdir : (t.node d).type = .dir) (hv : (n, v) ∈ (t.node d).entries) :
      Leads t root (names ++ [n]) v

def Is (fs : Fs) (v : ℕ) : Content → Prop
  | .file bytes => (fs.tree.node v).type = .file ∧ Represents (fs.files v) bytes
  | .dir => (fs.tree.node v).type = .dir
  | .link target => (fs.tree.node v).type = .link ∧ (fs.tree.node v).link = target

structure Exact (fs : Fs) (root : ℕ) (items : List Item) : Prop where
  present : ∀ i ∈ items, i.names ≠ [] → ∃ v, Leads fs.tree root i.names v
  described : ∀ names v, Leads fs.tree root names v → names ≠ [] →
    ∃ i ∈ items, i.names = names ∧ Is fs v i.content
  once : ∀ names v, Leads fs.tree root names v → ((fs.tree.node v).entries.map Prod.fst).Nodup

section

variable {ps : List Bytes} {n : Bytes}

end

variable {root : ℕ} {fs : Fs} {ps : List Bytes}

structure Made (fs : Fs) (dir : ℕ) (name : Bytes) (c : Content) (fs' : Fs) : Prop where
  next : fs.next < fs'.next
  old : ∀ v, v ≠ fs.next → fs'.tree.node v = { fs.tree.node v with
    entries := (fs.tree.node v).entries ++ if v = dir then [(name, fs.next)] else [] }
  files : ∀ v, v ≠ fs.next → fs'.files v = fs.files v
  new : Is fs' fs.next c
  bare : (fs'.tree.node fs.next).mountpointof = none ∧ (fs'.tree.node fs.next).entries = []

section

variable (i : Item) (tail : Bytes)

end

structure Placed where
  dir : List Bytes
  name : Bytes
  content : Content
  deriving DecidableEq

def Placed.names (p : Placed) : List Bytes := p.dir ++ [p.name]

def Present (placed : List Placed) (names : List Bytes) : Prop :=
  names = [] ∨ ∃ p ∈ placed, p.names = names

def IsDir (placed : List Placed) (names : List Bytes) : Prop :=
  names = [] ∨ ∃ p ∈ placed, p.names = names ∧ p.content = .dir

def children (loc : List Bytes → ℕ) (placed : List Placed) (names : List Bytes) :
    List (Bytes × ℕ) :=
  (placed.filter (·.dir = names)).map fun p => (p.name, loc p.names)

structure Laid (fs : Fs) (root : ℕ) (loc : List Bytes → ℕ) (placed : List Placed) : Prop where
  start : loc [] = root
  type : (fs.tree.node root).type = .dir
  lt : ∀ names, Present placed names → loc names < fs.next
  inj : ∀ a b, Present placed a → Present placed b → loc a = loc b → a = b
  distinct : (placed.map Placed.names).Nodup
  is : ∀ p ∈ placed, Is fs (loc p.names) p.content
  bare : ∀ p ∈ placed, (fs.tree.node (loc p.names)).mountpointof = none
  entries : ∀ names, Present placed names →
    (fs.tree.node (loc names)).entries = children loc placed names
  parent : ∀ p ∈ placed, IsDir placed p.dir

section

variable {fs fs' : Fs} {root : ℕ} {loc : List Bytes → ℕ} {placed : List Placed}
  {names d : List Bytes} {n : Bytes} {c : Content}

theorem IsDir.present (h : IsDir placed names) : Present placed names :=
  h.imp id fun ⟨p, hp, heq, _⟩ => ⟨p, hp, heq⟩

theorem Present.append (h : Present placed names) (p : Placed) : Present (placed ++ [p]) names :=
  h.imp id fun ⟨q, hq, heq⟩ => ⟨q, mem_append_left _ hq, heq⟩

theorem IsDir.append (h : IsDir placed names) (p : Placed) : IsDir (placed ++ [p]) names :=
  h.imp id fun ⟨q, hq, heq⟩ => ⟨q, mem_append_left _ hq, heq⟩

variable {p : Placed}

theorem present_append :
    Present (placed ++ [p]) names ↔ Present placed names ∨ names = p.names := by
  constructor
  · rintro (rfl | ⟨q, hq, rfl⟩)
    · exact .inl (.inl rfl)
    · rcases mem_append.mp hq with hq | hq
      · exact .inl (.inr ⟨q, hq, rfl⟩)
      · exact .inr (congrArg _ (mem_singleton.mp hq))
  · rintro (h | rfl)
    · exact h.append p
    · exact .inr ⟨p, by simp, rfl⟩

variable {v : ℕ}

theorem mem_children :
    (n, v) ∈ children loc placed names ↔ ∃ p ∈ placed, p.dir = names ∧ p.name = n ∧
      v = loc (names ++ [n]) := by
  simp only [children, mem_map, mem_filter, decide_eq_true_eq, Prod.mk.injEq]
  constructor
  · rintro ⟨p, ⟨hp, rfl⟩, rfl, rfl⟩
    exact ⟨p, hp, rfl, rfl, rfl⟩
  · rintro ⟨p, hp, rfl, rfl, rfl⟩
    exact ⟨p, ⟨hp, rfl⟩, rfl, rfl⟩

theorem nodup_children (h : (placed.map Placed.names).Nodup) (names : List Bytes) :
    ((children loc placed names).map Prod.fst).Nodup := by
  have hsb : ((placed.filter (·.dir = names)).map Placed.names).Nodup :=
    h.sublist (filter_sublist.map _)
  rw [children, map_map]
  refine Nodup.of_map (names ++ [·]) ?_
  rw [map_map]
  convert hsb using 1
  refine map_congr_left fun p hp => ?_
  have hdir : p.dir = names := by simpa using (mem_filter.mp hp).2
  simp [Placed.names, hdir]

section

variable (h : Laid fs root loc placed)

include h

theorem Laid.dirType (hdir : IsDir placed names) :
    (fs.tree.node (loc names)).type = .dir := by
  rcases hdir with rfl | ⟨p, hp, rfl, hcn⟩
  · rw [h.start]
    exact h.type
  · have his := h.is p hp
    rwa [hcn] at his

theorem Laid.leads_iff (names : List Bytes) (v : ℕ) :
    Leads fs.tree root names v ↔ Present placed names ∧ v = loc names := by
  constructor
  · intro hlds
    induction hlds with
    | root => exact ⟨.inl rfl, h.start.symm⟩
    | @entry names d v n _ _ hv ih =>
      rw [ih.2, h.entries names ih.1] at hv
      obtain ⟨p, hp, rfl, rfl, rfl⟩ := mem_children.mp hv
      exact ⟨.inr ⟨p, hp, rfl⟩, rfl⟩
  · rintro ⟨hpr, rfl⟩
    induction names using reverseRecOn with
    | nil =>
      rw [h.start]
      exact .root
    | append_singleton names n ih =>
      rcases hpr with hnl | ⟨p, hp, heq⟩
      · simp at hnl
      · obtain ⟨rfl, hnm⟩ := append_inj' heq rfl
        obtain rfl := singleton_inj.mp hnm
        have hdir := h.parent p hp
        refine .entry (ih hdir.present) (h.dirType hdir) ?_
        rw [h.entries _ hdir.present]
        exact mem_children.mpr ⟨p, hp, rfl, rfl, rfl⟩

theorem Laid.over_none (hp : p ∈ placed) :
    fs.tree.over (loc p.names) = none := by
  rw [Tree.over, h.bare p hp]
  rfl

theorem Laid.walk (hdir : IsDir placed names)
    (hpp : ∀ n ∈ names, Proper n) :
    VfsLookup.walk fs.tree root names = .ok (.done (loc names)) := by
  induction names using List.reverseRecOn with
  | nil => rw [VfsLookup.walk, h.start]
  | append_singleton names n ih =>
    obtain hnl | ⟨p, hp, heq, -⟩ := id hdir
    · simp at hnl
    · have hty := h.dirType hdir
      obtain ⟨rfl, hnm⟩ := append_inj' heq rfl
      obtain rfl := singleton_inj.mp hnm
      have hpa := h.parent p hp
      have hn := hpp p.name (by simp)
      have hfd := find_of_nodup
        (h.entries _ hpa.present ▸ nodup_children h.distinct p.dir)
        (h.entries _ hpa.present ▸ mem_children.mpr ⟨p, hp, rfl, rfl, rfl⟩)
      have hsp := step_of_find hn.ne_dot hn.ne_dotdot (h.dirType hpa) hfd
      have hbt : bottom fs.tree (loc (p.dir ++ [p.name])) = loc (p.dir ++ [p.name]) :=
        bottom_of_none (h.over_none hp)
      rw [hbt] at hsp
      rw [walk_append (ih hpa fun n hn => hpp n (by simp [hn])),
        walk_cons_of_step hn.ne_dot hsp (by simp [hty])]
      rfl

end

def written (dotted : Bool) (d : List Bytes) : List Bytes := if dotted then dot :: d else d

theorem Made.is {d : ℕ} (h : Made fs d n c fs') {c' : Content} (hv : v ≠ fs.next)
    (hc : Is fs v c') : Is fs' v c' := by
  cases c' with
  | file bytes => simpa [Is, h.old v hv, h.files v hv] using hc
  | dir | link target => simpa [Is, h.old v hv] using hc

theorem children_append (loc : List Bytes → ℕ) (placed : List Placed) (p : Placed)
    (names : List Bytes) : children loc (placed ++ [p]) names =
      children loc placed names ++ if p.dir = names then [(p.name, loc p.names)] else [] := by
  by_cases hp : p.dir = names
  · simp [children, hp]
  · simp [children, hp]

theorem children_congr {loc' : List Bytes → ℕ} (h : ∀ p ∈ placed, loc' p.names = loc p.names)
    (names : List Bytes) : children loc' placed names = children loc placed names :=
  map_congr_left fun p hp => by rw [h p (mem_filter.mp hp).1]

theorem children_eq_nil (h : ∀ p ∈ placed, p.dir ≠ names) : children loc placed names = [] := by
  have hflt : placed.filter (·.dir = names) = [] :=
    filter_eq_nil_iff.mpr fun p hp => by simpa using h p hp
  rw [children, hflt, map_nil]

theorem Laid.add (h : Laid fs root loc placed) (hdir : IsDir placed d)
    (hnw : ¬ Present placed (d ++ [n])) (hmd : Made fs (loc d) n c fs') :
    Laid fs' root (update loc (d ++ [n]) fs.next) (placed ++ [⟨d, n, c⟩]) := by
  have hne : ∀ names, Present placed names → names ≠ d ++ [n] := by
    rintro names hns rfl
    exact hnw hns
  have hlc : ∀ names, Present placed names →
      update loc (d ++ [n]) fs.next names = loc names := fun names hns =>
    update_of_ne (hne names hns) _ _
  have hold : ∀ names, Present placed names → loc names ≠ fs.next := fun names hns =>
    ne_of_lt (h.lt names hns)
  have hsl : update loc (d ++ [n]) fs.next (Placed.names ⟨d, n, c⟩) = fs.next :=
    update_self _ _ _
  generalize update loc (d ++ [n]) fs.next = loc' at hlc hsl ⊢
  have hpr : ∀ p ∈ placed, Present placed p.names := fun p hp => .inr ⟨p, hp, rfl⟩
  constructor
  case start => rw [hlc [] (.inl rfl), h.start]
  case type =>
    rw [← h.start, hmd.old _ (hold [] (.inl rfl)), h.start]
    exact h.type
  case lt =>
    intro names hns
    rcases present_append.mp hns with hns | rfl
    · rw [hlc names hns]
      exact lt_trans (h.lt names hns) hmd.next
    · rw [hsl]
      exact hmd.next
  case inj =>
    intro a b ha hb heq
    rcases present_append.mp ha with ha | rfl <;> rcases present_append.mp hb with hb | rfl
    · rw [hlc a ha, hlc b hb] at heq
      exact h.inj a b ha hb heq
    · exact absurd (((hlc a ha).symm.trans heq).trans hsl) (hold a ha)
    · exact absurd (((hlc b hb).symm.trans heq.symm).trans hsl) (hold b hb)
    · rfl
  case distinct =>
    rw [map_append, nodup_append]
    refine ⟨h.distinct, nodup_singleton _, fun a ha b hb => ?_⟩
    obtain ⟨p, hp, rfl⟩ := mem_map.mp ha
    rw [mem_singleton.mp hb]
    exact hne _ (hpr p hp)
  case is =>
    intro p hp
    rcases mem_append.mp hp with hp | hp
    · rw [hlc _ (hpr p hp)]
      exact hmd.is (hold _ (hpr p hp)) (h.is p hp)
    · rw [mem_singleton.mp hp, hsl]
      exact hmd.new
  case bare =>
    intro p hp
    rcases mem_append.mp hp with hp | hp
    · rw [hlc _ (hpr p hp), hmd.old _ (hold _ (hpr p hp))]
      exact h.bare p hp
    · rw [mem_singleton.mp hp, hsl]
      exact hmd.bare.1
  case entries =>
    intro names hns
    rw [children_append, children_congr fun p hp => hlc _ (hpr p hp)]
    rcases present_append.mp hns with hns | rfl
    · rw [hlc names hns, hmd.old _ (hold names hns), h.entries names hns]
      have hif : loc names = loc d ↔ d = names :=
        ⟨fun heq => (h.inj names d hns hdir.present heq).symm, fun heq => by rw [heq]⟩
      simp only [hif, hsl]
    · rw [children_eq_nil, if_neg, append_nil]
      · rw [hsl]
        exact hmd.bare.2
      · simp [Placed.names]
      · intro p hp heq
        have hpa := (h.parent p hp).present
        rw [heq] at hpa
        exact hnw hpa
  case parent =>
    intro p hp
    rcases mem_append.mp hp with hp | hp
    · exact (h.parent p hp).append _
    · rw [mem_singleton.mp hp]
      exact hdir.append _

end

namespace Item

variable (i : Item)

def Skipped : Prop := i.path.length = 2 ∧ i.path.head? = some 46
  deriving Decidable

def place : Placed := ⟨i.names.dropLast, i.names.getLast?.getD dot, i.content⟩

theorem names_place (h : i.names ≠ []) : i.place.names = i.names := by
  rw [Placed.names, place, getLast?_eq_some_getLast h]
  exact dropLast_append_getLast h

theorem skipped_root_iff (h : i.names = []) : i.Skipped ↔ i.slashed = true := by
  cases hss : i.slashed <;> simp [Skipped, path, parts, h, hss, joined, dot]

end Item

section

variable {fs fs' : Fs} {root off : ℕ} {loc : List Bytes → ℕ} {wild : Option ℕ} {tar tail : Bytes}
  {before items : List Item} {i : Item}

def kept (items : List Item) : List Placed :=
  (items.filter fun i => ¬ i.Skipped).map Item.place

theorem mem_kept {p : Placed} : p ∈ kept items ↔ ∃ i ∈ items, ¬ i.Skipped ∧ i.place = p := by
  simp [kept, and_assoc]

end

def Item.Misread (i : Item) : Prop :=
  if i.names = [] then i.path = dot else i.path.length = 2 ∧ i.path.head? = some 46

theorem Item.misread_iff (i : Item) : i.Misread ↔ (i.names = [] ↔ ¬ i.Skipped) := by
  by_cases h : i.names = []
  · rw [Misread, if_pos h, i.skipped_root_iff h]
    cases hss : i.slashed <;> simp [h, path, parts, hss, joined]
  · rw [Misread, if_neg h]
    simp [h, Skipped]

variable {loc : List Bytes → ℕ} {items : List Item}

theorem Laid.exact (h : Laid fs root loc (kept items)) (hgd : ∀ i ∈ items, ¬ i.Misread) :
    Exact fs root items := by
  have hskp : ∀ i ∈ items, (i.names = [] ↔ i.Skipped) := fun i hi => by
    have := mt i.misread_iff.mpr (hgd i hi)
    tauto
  constructor
  case present =>
    intro i hi hne
    have hnt : ¬ i.Skipped := fun hs => hne ((hskp i hi).mpr hs)
    have hpr : Present (kept items) i.names :=
      .inr ⟨i.place, mem_kept.mpr ⟨i, hi, hnt, rfl⟩, i.names_place hne⟩
    exact ⟨_, (h.leads_iff _ _).mpr ⟨hpr, rfl⟩⟩
  case described =>
    intro names v hlds hne
    obtain ⟨hpr, rfl⟩ := (h.leads_iff names v).mp hlds
    rcases hpr with hnl | ⟨p, hp, rfl⟩
    · exact absurd hnl hne
    · have his := h.is p hp
      obtain ⟨i, hi, hnt, rfl⟩ := mem_kept.mp hp
      have hns : i.names ≠ [] := fun hnl => hnt ((hskp i hi).mp hnl)
      exact ⟨i, hi, (i.names_place hns).symm, his⟩
  case once =>
    intro names v hlds
    obtain ⟨hpr, rfl⟩ := (h.leads_iff names v).mp hlds
    rw [h.entries names hpr]
    exact nodup_children h.distinct names

def mounted : Fs where
  tree := {
    node := fun v => ⟨if v = 0 then .dir else .file, 0, none, v = 0, none, [], []⟩
    vfs := fun _ => ⟨none, 0⟩
    numVfs := 1
    mounted := fun _ _ h => by cases h
    root := fun _ hf => ⟨(Nat.lt_one_iff.mp hf).symm, rfl⟩
    mountpoint := fun _ _ h => by cases h
    parent := fun _ _ h => by cases h
    bound := fun _ => Nat.one_pos }
  files := fun _ => newFile
  next := 1
  unused v hv := {
    root := fun _ _ => Nat.ne_of_lt hv
    mountpoint := fun _ h => by cases h
    parent := fun _ h => by cases h
    entry := fun _ _ h => absurd h not_mem_nil }

/-- The directory `d`, the file `d/a` and the file `.a`. -/
inductive Sample where
  | dir
  | nested
  | hidden

namespace Sample

def names : Sample → List Bytes
  | .dir => [[100]]
  | .nested => [[100], [97]]
  | .hidden => [[46, 97]]

def type : Sample → UInt8
  | .dir => GNUTAR_DIR
  | _ => 48

def data : Sample → Bytes
  | .dir => []
  | _ => [104]

def digits (k : Sample) : Bytes := replicate 10 48 ++ [48 + UInt8.ofNat k.data.length]

end Sample

end InitrdExtract
