import Mathlib.Data.PNat.Notation
import Mathlib.Algebra.Order.Ring.Nat
import SalernosKernel.Config

/-! # Addresses of sockets

The conversions of `com/ipc/socket/socket.c` for `AF_UNIX`. `pathOff` is the offset of `sun_path` in
`struct sockaddr_un`, and memory is numbered from `sun_path` on. -/
namespace SocketAddress

open List Function

/-- `com_ipc_socket_addr_from_abi` returns with this path: `kstrlen` has stopped at a `NUL`. -/
def AddrFromAbi (mem : ℕ → UInt8) (path : List UInt8) : Prop :=
  mem path.length = 0 ∧ 0 ∉ path ∧ path = (range path.length).map mem
  deriving Decidable

/-- What is written from `sun_path` on, and `*abi_addr_len`. -/
def comIpcSocketAbiFromAddr (path : List UInt8) (maxAbiAddrLen : BitVec 32) : List UInt8 × ℕ :=
  let copySize := min path.length (maxAbiAddrLen - 1).toNat
  (path.take copySize ++ [0], copySize)

/-- The path has room, and is the same whatever stands after the first `abiAddrLen` bytes. -/
def ReadsWithin (pathOff : ℕ) (mem : ℕ → UInt8) (abiAddrLen : ℕ) : Prop :=
  ∃ path, path.length ≤ pathMax ∧
    ∀ mem', (∀ i, pathOff + i < abiAddrLen → mem' i = mem i) → AddrFromAbi mem' path

def WritesWithin (pathOff : ℕ) (path : List UInt8) (maxAbiAddrLen : BitVec 32) : Prop :=
  pathOff + (comIpcSocketAbiFromAddr path maxAbiAddrLen).1.length ≤ maxAbiAddrLen.toNat

theorem readsWithin_iff (pathOff : ℕ) (mem : ℕ → UInt8) (abiAddrLen : ℕ) :
    ReadsWithin pathOff mem abiAddrLen ↔ ∃ path, AddrFromAbi mem path ∧
      pathOff + path.length < abiAddrLen ∧ path.length ≤ pathMax := by
  constructor
  · rintro ⟨path, hrm, hrd⟩
    refine ⟨path, hrd mem fun _ _ => rfl, ?_, hrm⟩
    by_contra hout
    -- the byte at the end of the path could be another
    have hot := (hrd (update mem path.length 1) fun i hi => update_of_ne (by omega) _ _).1
    rw [update_self] at hot
    cases hot
  · rintro ⟨path, ⟨hed, hnt, hpt⟩, hin, hrm⟩
    refine ⟨path, hrm, fun mem' hme' => ⟨(hme' _ hin).trans hed, hnt, hpt.trans ?_⟩⟩
    refine map_congr_left fun i hi => (hme' i ?_).symm
    have := mem_range.mp hi
    omega

theorem copySize_eq (path : List UInt8) (max : BitVec 32) :
    (comIpcSocketAbiFromAddr path max).2 = min path.length ((2 ^ 32 - 1 + max.toNat) % 2 ^ 32) := by
  rw [comIpcSocketAbiFromAddr, BitVec.toNat_sub]
  rfl

theorem fromAddr_of_fits {pathOff : ℕ+} {path : List UInt8} {max : BitVec 32}
    (h : pathOff + path.length < max.toNat) :
    (comIpcSocketAbiFromAddr path max).1 = path ++ [0] := by
  have hcp := copySize_eq path max
  have hmn : path.length ≤ (comIpcSocketAbiFromAddr path max).2 := by omega
  exact congrArg (· ++ [0]) (take_of_length_le hmn)

theorem writesWithin_iff (pathOff : ℕ+) (path : List UInt8) (max : BitVec 32) :
    WritesWithin pathOff path max ↔ pathOff + path.length < max.toNat := by
  constructor
  · intro h
    have hcp := copySize_eq path max
    have hln : (comIpcSocketAbiFromAddr path max).1.length =
        min (comIpcSocketAbiFromAddr path max).2 path.length + 1 := by
      simp [comIpcSocketAbiFromAddr]
    have hps : 0 < (pathOff : ℕ) := pathOff.2
    rw [WritesWithin, hln] at h
    omega
  · intro h
    rw [WritesWithin, fromAddr_of_fits h, length_append]
    exact h

/-- Exactly the paths that fit stay in bounds. -/
theorem addresses_safe_iff (pathOff : ℕ+) :
    (∀ mem abiAddrLen, ReadsWithin pathOff mem abiAddrLen ↔ ∃ path, AddrFromAbi mem path ∧
      pathOff + path.length < abiAddrLen ∧ path.length ≤ pathMax) ∧
    ∀ path max, (WritesWithin pathOff path max ↔ pathOff + path.length < max.toNat) ∧
      ∀ mem, pathOff + path.length < max.toNat →
        (∀ i, ∀ b ∈ (comIpcSocketAbiFromAddr path max).1[i]?, mem i = b) →
          (AddrFromAbi mem path ↔ 0 ∉ path) := by
  refine ⟨readsWithin_iff pathOff, fun path max => ⟨writesWithin_iff pathOff path max, ?_⟩⟩
  intro mem h hme
  rw [fromAddr_of_fits h] at hme
  refine ⟨fun h => h.2.1, fun hnt => ⟨hme _ 0 (by simp), hnt, ?_⟩⟩
  refine ext_getElem (by simp) fun i hi _ => ?_
  rw [getElem_map, getElem_range, hme i path[i] (by simp [getElem?_append_left hi])]

/-- Bytes without a `NUL`, and a structure without room for one. -/
theorem addresses_unsafe : ¬ ReadsWithin 2 (fun _ => 97) 110 ∧ ¬ WritesWithin 2 [97, 98] 4 := by
  refine ⟨fun ⟨path, _, hrd⟩ => ?_, by unfold WritesWithin; decide⟩
  exact absurd (show (97 : UInt8) = 0 from (hrd _ fun _ _ => rfl).1) (by decide)

end SocketAddress
