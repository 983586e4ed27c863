import SalernosKernel.Runs
import SalernosKernel.WaitQueue

/-! # Futexes

`com/sys/syscall/futex.c` for one word whose page stays the same; other words have futexes of their
own. The stores of user programs are steps like those of the calls. -/
namespace Futex

open WaitQueue Option
open Function

inductive Ret where
  | ok (value : ℕ)
  | EAGAIN
  | EINTR
  deriving DecidableEq

inductive Place where
  | outside (ret : Ret)
  | compared
  | found
  | waiting
  | woken
  | waking (value : BitVec 32)
  | notifying (value : BitVec 32)
  deriving DecidableEq

structure Member where
  place : Place
  value : BitVec 32
  overtaken : Bool
  /-- A `FUTEX_WAKE` that began after such a store, and was for all who waited, is over. -/
  served : Bool
  deriving DecidableEq

structure State (T : Type*) where
  word : BitVec 32
  mapped : Bool
  waiters : List T
  member : T → Member
  /-- Whose comparisons were overtaken when a `FUTEX_WAKE` of the first thread began. -/
  overtook : T → T → Bool

inductive Event (T : Type*) where
  | wait (t : T) (value : BitVec 32)
  | store (value : BitVec 32)
  | find (t : T)
  | enqueue (t : T)
  | interrupt (t : T)
  | leave (t : T) (signal : Bool)
  | wake (t : T) (value : BitVec 32)
  | lookup (t : T)
  | notify (t : T)
  deriving DecidableEq

section Model

variable {T : Type*} [DecidableEq T]

def initial (word : BitVec 32) : State T :=
  ⟨word, false, [], fun _ => ⟨.outside (.ok 0), 0, false, false⟩, fun _ _ => false⟩

def State.move (s : State T) (t : T) (place : Place) : State T :=
  { s with member := update s.member t { s.member t with place := place } }

def INT_MAX : ℕ := 2 ^ 31 - 1

def State.count (s : State T) (value : BitVec 32) : ℕ :=
  if INT_MAX ≤ value.toNat then s.waiters.length else value.toNat

def State.serve (s : State T) (t : T) (value : BitVec 32) (ret : Ret) : State T :=
  { s with member := fun u =>
      let m := s.member u
      if u = t then { m with place := .outside ret }
      else { m with served := m.served || (s.overtook t u && s.waiters.length ≤ s.count value) } }

def State.take (s : State T) (n : ℕ) : State T :=
  { s with
    waiters := s.waiters.drop n
    member := fun u =>
      if u ∈ s.waiters.take n then { s.member u with place := .woken } else s.member u }

def next (s : State T) : Event T → Option (State T)
  | .wait t value =>
    match (s.member t).place with
    | .outside _ =>
      if s.word = value then
        some { s with
          member := update s.member t ⟨.compared, value, false, false⟩
          overtook := fun u => update (s.overtook u) t false }
      else some (s.move t (.outside .EAGAIN))
    | _ => none
  | .store value =>
    some { s with
      word := value
      member := fun u =>
        { s.member u with overtaken := (s.member u).overtaken || value ≠ (s.member u).value } }
  | .find t =>
    if (s.member t).place = .compared then some ({ s with mapped := true }.move t .found) else none
  | .enqueue t =>
    if (s.member t).place = .found then
      some ({ s with waiters := s.waiters ++ [t] }.move t .waiting)
    else none
  | .interrupt t =>
    if (s.member t).place = .waiting then
      some ({ s with waiters := s.waiters.erase t }.move t .woken)
    else none
  | .leave t signal =>
    if (s.member t).place = .woken then
      some (s.move t (.outside (if signal then .EINTR else .ok 0)))
    else none
  | .wake t value =>
    match (s.member t).place with
    | .outside _ =>
      some ({ s with overtook := update s.overtook t fun u => (s.member u).overtaken }.move t
        (.waking value))
    | _ => none
  | .lookup t =>
    match (s.member t).place with
    | .waking value =>
      some (if s.mapped then s.move t (.notifying value) else s.serve t value (.ok 0))
    | _ => none
  | .notify t =>
    match (s.member t).place with
    | .notifying value =>
      some ((s.serve t value (.ok value.toNat)).take (s.count value))
    | _ => none

def Place.Arriving : Place → Prop
  | .compared => True
  | .found => True
  | _ => False

def Ends (s : State T) : Event T → Prop
  | .lookup _ => s.mapped = false
  | .notify _ => True
  | _ => False

/-- A wait that a store and a `FUTEX_WAKE` after it were to end. -/
def Lost (s : State T) : Prop := ∃ t ∈ s.waiters, (s.member t).served = true
  deriving Decidable

/-- A `FUTEX_WAKE` ends only while no overtaken thread is on its way to the list. -/
def Arrived (s : State T) (e : Event T) : Prop :=
  Ends s e → ∀ t, (s.member t).overtaken = true → ¬ (s.member t).place.Arriving

instance : DecidablePred Place.Arriving := fun place => by
  cases place <;> simp only [Place.Arriving] <;> infer_instance

instance (s : State T) (e : Event T) : Decidable (Ends s e) := by
  cases e <;> simp only [Ends] <;> infer_instance

instance [Fintype T] (s : State T) (e : Event T) : Decidable (Arrived s e) :=
  inferInstanceAs (Decidable (Ends s e → ∀ t, (s.member t).overtaken = true →
    ¬ (s.member t).place.Arriving))

end Model

structure Sound (mapped : Bool) (m : Member) : Prop where
  mapped : m.place = .found ∨ m.place = .waiting → mapped = true
  served : m.served = true → ¬ m.place.Arriving ∧ m.place ≠ .waiting

theorem sound_away {mapped : Bool} {m : Member} (har : ¬ m.place.Arriving)
    (hwt : m.place ≠ .waiting) : Sound mapped m :=
  ⟨fun h => h.elim (fun hfn => absurd (hfn ▸ trivial) har) fun h => absurd h hwt,
    fun _ => ⟨har, hwt⟩⟩

section Invariants

variable {T : Type*} [DecidableEq T]

structure Invariant (s : State T) : Prop where
  listed : Listed s.waiters s.member (·.place = .waiting)
  sound : ∀ t, Sound s.mapped (s.member t)
  overtook : ∀ t u, s.overtook t u = true → (s.member u).overtaken = true

variable {s s' : State T} {t : T}

omit [DecidableEq T] in
theorem invariant_initial (word : BitVec 32) : Invariant (initial word : State T) :=
  ⟨listed_nil fun _ => nofun, fun _ => sound_away not_false nofun, fun _ _ h => nomatch h⟩

theorem Invariant.move (h : Invariant s) {waiters : List T} {mapped : Bool} {place : Place}
    (hls : Listed waiters (s.move t place).member (·.place = .waiting))
    (hmp : s.mapped = true → mapped = true)
    (hsn : Sound mapped { s.member t with place := place }) :
    Invariant ({ s with waiters := waiters, mapped := mapped }.move t place) := by
  refine ⟨hls, fun u => ?_, fun u v huv => ?_⟩
  · rw [State.move]
    dsimp only
    by_cases hut : u = t
    · rwa [hut, update_self]
    · rw [update_of_ne hut]
      exact ⟨fun hpl => hmp ((h.sound u).mapped hpl), (h.sound u).served⟩
  · have hv := h.overtook u v huv
    rw [State.move]
    dsimp only
    by_cases hvt : v = t
    · rw [hvt, update_self]
      exact hvt ▸ hv
    · rwa [update_of_ne hvt]

theorem Invariant.move_away (h : Invariant s) {place : Place} (ht : (s.member t).place ≠ .waiting)
    (har : ¬ place.Arriving) (hwt : place ≠ .waiting) : Invariant (s.move t place) :=
  h.move (h.listed.update (iff_of_false hwt ht)) id (sound_away har hwt)

theorem Invariant.compare (h : Invariant s) (value : BitVec 32)
    (ht : (s.member t).place ≠ .waiting) : Invariant { s with
      member := update s.member t ⟨.compared, value, false, false⟩
      overtook := fun u => update (s.overtook u) t false } := by
  refine ⟨h.listed.update (iff_of_false nofun ht), fun u => ?_, fun u v huv => ?_⟩
  · dsimp only
    by_cases hut : u = t
    · rw [hut, update_self]
      exact ⟨nofun, nofun⟩
    · rw [update_of_ne hut]
      exact h.sound u
  · dsimp only at huv ⊢
    by_cases hvt : v = t
    · rw [hvt, update_self] at huv
      exact nomatch huv
    · rw [update_of_ne hvt] at huv ⊢
      exact h.overtook u v huv

omit [DecidableEq T] in
theorem Invariant.store (h : Invariant s) (value : BitVec 32) : Invariant { s with
    word := value
    member := fun u =>
      { s.member u with overtaken := (s.member u).overtaken || value ≠ (s.member u).value } } := by
  refine ⟨⟨h.listed.nodup, h.listed.mem_iff⟩, fun u => ⟨(h.sound u).mapped, (h.sound u).served⟩,
    fun u v huv => ?_⟩
  dsimp only
  rw [h.overtook u v huv, Bool.true_or]

theorem Invariant.beginWake (h : Invariant s) : Invariant { s with
    overtook := update s.overtook t fun u => (s.member u).overtaken } := by
  refine ⟨h.listed, h.sound, fun u v huv => ?_⟩
  dsimp only at huv
  by_cases hut : u = t
  · rw [hut, update_self] at huv
    exact huv
  · rw [update_of_ne hut] at huv
    exact h.overtook u v huv

omit [DecidableEq T] in
theorem mem_drop_iff {l : List T} (h : l.Nodup) (n : ℕ) (u : T) :
    u ∈ l.drop n ↔ u ∈ l ∧ u ∉ l.take n := by
  have hsp := List.take_append_drop n l
  have hnd : (l.take n ++ l.drop n).Nodup := by rwa [hsp]
  have hds := (List.nodup_append.mp hnd).2.2
  constructor
  · exact fun hu => ⟨List.mem_of_mem_drop hu, fun hu' => hds u hu' u hu rfl⟩
  · rintro ⟨hu, hnt⟩
    rw [← hsp, List.mem_append] at hu
    exact hu.resolve_left hnt

theorem Invariant.serve (h : Invariant s) {value : BitVec 32} {ret : Ret}
    (ht : (s.member t).place ≠ .waiting)
    (harr : ∀ u, (s.member u).overtaken = true → ¬ (s.member u).place.Arriving) :
    Invariant ((s.serve t value ret).take (s.count value)) := by
  have hsl : ((s.serve t value ret).take (s.count value)).member t =
      { s.member t with place := .outside ret } := by
    have hnt : t ∉ s.waiters.take (s.count value) := fun hme =>
      ht ((h.listed.mem_iff t).mp (List.mem_of_mem_take hme))
    exact (if_neg hnt).trans (if_pos rfl)
  have hot : ∀ u, u ≠ t → ((s.serve t value ret).take (s.count value)).member u =
      let m := { s.member u with served := (s.member u).served ||
        (s.overtook t u && s.waiters.length ≤ s.count value) }
      if u ∈ s.waiters.take (s.count value) then { m with place := .woken } else m := by
    intro u hu
    rw [State.take, State.serve]
    dsimp only
    rw [if_neg hu]
  refine ⟨⟨h.listed.nodup.sublist (List.drop_sublist _ _), fun u => ?_⟩, fun u => ?_, fun v u huv => ?_⟩
  · change u ∈ s.waiters.drop (s.count value) ↔ _
    rw [mem_drop_iff h.listed.nodup, h.listed.mem_iff]
    by_cases hu : u = t
    · rw [hu, hsl]
      exact iff_of_false (fun hw => ht hw.1) nofun
    · rw [hot u hu]
      split_ifs with hme
      · exact iff_of_false (fun hw => hw.2 hme) nofun
      · exact ⟨And.left, fun hw => ⟨hw, hme⟩⟩
  · by_cases hu : u = t
    · rw [hu, hsl]
      exact sound_away not_false nofun
    · rw [hot u hu]
      dsimp only
      split_ifs with hme
      · exact sound_away not_false nofun
      · refine ⟨(h.sound u).mapped, fun hsr => ?_⟩
        rw [Bool.or_eq_true, Bool.and_eq_true, decide_eq_true_iff] at hsr
        rcases hsr with hsr | ⟨hov, hal⟩
        · exact (h.sound u).served hsr
        · refine ⟨harr u (h.overtook t u hov), fun hwt => hme ?_⟩
          rw [List.take_of_length_le hal]
          exact (h.listed.mem_iff u).mpr hwt
  · have hu := h.overtook v u huv
    by_cases hut : u = t
    · rw [hut, hsl]
      exact hut ▸ hu
    · rw [hot u hut]
      split_ifs <;> exact hu

theorem take_of_nil (hnl : s.waiters = []) (n : ℕ) : s.take n = s := by
  obtain ⟨word, mapped, waiters, member, overtook⟩ := s
  obtain rfl := hnl
  simp [State.take]

theorem Invariant.serve_unmapped (h : Invariant s) {value : BitVec 32} {ret : Ret}
    (ht : (s.member t).place ≠ .waiting) (hmp : s.mapped = false)
    (harr : ∀ u, (s.member u).overtaken = true → ¬ (s.member u).place.Arriving) :
    Invariant (s.serve t value ret) := by
  have hnl : s.waiters = [] := by
    refine List.eq_nil_iff_forall_not_mem.mpr fun u hu => ?_
    have hu' := (h.sound u).mapped (.inr ((h.listed.mem_iff u).mp hu))
    exact Bool.false_ne_true (hmp.symm.trans hu')
  have hsv : Invariant ((s.serve t value ret).take (s.count value)) := h.serve ht harr
  rwa [take_of_nil (s := s.serve t value ret) hnl] at hsv

theorem Invariant.next (h : Invariant s) {e : Event T} (hok : Arrived s e)
    (hn : next s e = some s') : Invariant s' := by
  cases e with
  | wait t value =>
    rw [Futex.next] at hn
    split at hn
    · rename_i ret ht
      have haw : (s.member t).place ≠ .waiting := ht ▸ nofun
      split_ifs at hn
      · cases hn
        exact h.compare value haw
      · cases hn
        exact h.move_away haw not_false nofun
    · exact nomatch hn
  | store value =>
    cases hn
    exact h.store value
  | find t =>
    obtain ⟨ht, hs'⟩ := ite_none_right_eq_some.mp hn
    cases hs'
    refine h.move (h.listed.update (iff_of_false nofun (ht ▸ nofun))) (fun _ => rfl)
      ⟨fun _ => rfl, fun hsr => ?_⟩
    exact absurd (ht ▸ trivial) ((h.sound t).served hsr).1
  | enqueue t =>
    obtain ⟨ht, hs'⟩ := ite_none_right_eq_some.mp hn
    cases hs'
    refine h.move (h.listed.enqueue (ht ▸ nofun) rfl) id
      ⟨fun _ => (h.sound t).mapped (.inl ht), fun hsr => ?_⟩
    exact absurd (ht ▸ trivial) ((h.sound t).served hsr).1
  | interrupt t =>
    obtain ⟨ht, hs'⟩ := ite_none_right_eq_some.mp hn
    cases hs'
    exact h.move (h.listed.erase nofun) id (sound_away not_false nofun)
  | leave t signal =>
    obtain ⟨ht, hs'⟩ := ite_none_right_eq_some.mp hn
    cases hs'
    exact h.move_away (ht ▸ nofun) not_false nofun
  | wake t value =>
    rw [Futex.next] at hn
    split at hn
    · rename_i ret ht
      cases hn
      exact h.beginWake.move_away (by dsimp only; exact ht ▸ nofun)
        not_false nofun
    · exact nomatch hn
  | lookup t =>
    rw [Futex.next] at hn
    split at hn
    · rename_i value ht
      have haw : (s.member t).place ≠ .waiting := ht ▸ nofun
      cases hn
      split_ifs with hmp
      · exact h.move_away haw not_false nofun
      · have hno := Bool.eq_false_of_not_eq_true hmp
        exact h.serve_unmapped haw hno (hok hno)
    · exact nomatch hn
  | notify t =>
    rw [Futex.next] at hn
    split at hn
    · rename_i value ht
      cases hn
      exact h.serve (ht ▸ nofun) (hok trivial)
    · exact nomatch hn

end Invariants

/-- No wake-up is lost in a run in which every `FUTEX_WAKE` finds those it is for on the list. -/
theorem wakeup_not_lost {T : Type*} [DecidableEq T] (word : BitVec 32) {s : State T}
    (h : Runs.Reaches next Arrived (initial word) s) : ¬ Lost s := by
  have hiv : Invariant s := h.invariant Invariant (invariant_initial word)
    fun _ _ _ hs hok hn => hs.next hok hn
  rintro ⟨t, ht, hsr⟩
  exact ((hiv.sound t).served hsr).2 ((hiv.listed.mem_iff t).mp ht)

theorem wakeup_not_lost_served : ∃ s : State (Fin 2), (s.member 0).served = true ∧
    (s.member 0).place = .woken ∧ ¬ Lost s := by
  have hrn : (Runs.run next Arrived (initial 0 : State (Fin 2)) [.wait 0 0, .find 0, .enqueue 0,
      .store 1, .wake 1 1, .lookup 1, .notify 1]).map
        (fun s => ((s.member 0).served, (s.member 0).place)) = some (true, .woken) := by
    decide +kernel
  obtain ⟨s, hs, hst⟩ := map_eq_some_iff.mp hrn
  obtain ⟨hsr, hpl⟩ := Prod.mk.inj hst
  exact ⟨s, hsr, hpl, wakeup_not_lost 0 (Runs.run_reaches hs)⟩

/-- The store and the whole `FUTEX_WAKE` come between the comparison and the insertion. -/
theorem wakeup_lost : ∃ s : State (Fin 2),
    Runs.Reaches next (fun _ _ => True) (initial 0) s ∧ Lost s := by
  have hrn : ((Runs.run next (fun _ _ => True) (initial 0 : State (Fin 2)) [.wait 0 0, .store 1,
      .wake 1 1, .lookup 1, .find 0, .enqueue 0]).map fun s => decide (Lost s)) = some true := by
    decide +kernel
  obtain ⟨s, hs, hlt⟩ := map_eq_some_iff.mp hrn
  exact ⟨s, Runs.run_reaches hs, of_decide_eq_true hlt⟩

end Futex
