import Mathlib.Data.List.TakeWhile
import PrefillOpt.Lib.Dialogue
import PrefillOpt.Network.Sockets

/-!
# Wire — what the root and a worker say to each other while they start up

The byte-level calls of `nn-network.cpp` that the configuration and the weights travel with: the
acknowledgements and the strings.  Here a `NnUint` is a `UInt32` and a `NnSize` a `UInt64`, since
it is their bytes that are sent.
-/

namespace PrefillOpt
namespace Network
namespace Wire

open Lib

abbrev NnUint := UInt32

abbrev NnSize := UInt64

abbrev NnByte := UInt8

/-- A program of one node; what it throws is the text of the exception. -/
abbrev NetIo (ρ : Type) := Io Port NnByte String ρ

/-- `new NnByte[n]`, filled with what was read. -/
def byteArray (n : Nat) (bs : List NnByte) : List.Vector NnByte n :=
  .ofFn fun i => bs.getD i 0

theorem byteArray_toList {n : Nat} (v : List.Vector NnByte n) : byteArray n v.toList = v := by
  apply List.Vector.ext
  intro i
  rw [byteArray, List.Vector.get_ofFn, List.Vector.get_eq_get_toList]
  simp

/-! ## Acknowledgements -/

def ACK : NnUint := 23571114

def writeAck (socket : Port) : NetIo Unit :=
  Io.writeRaw socket ACK

def readAck (socket : Port) : NetIo Unit := do
  let packet ← Io.readRaw NnUint socket
  if packet ≠ ACK then
    throw "Invalid ack packet"

theorem writeAck_runs (a : Port) : Runs (writeAck a) [.out a (Raw.store ACK)] () :=
  .writeRaw a ACK

theorem readAck_runs (a : Port) : Runs (readAck a) [.inp a (Raw.store ACK)] () := by
  have hgood : (if ACK ≠ ACK then throw "Invalid ack packet" else pure () : NetIo Unit)
      = pure () := if_neg (by simp)
  refine (Runs.readRaw a ACK).bind (l := []) ?_
  rw [hgood]
  exact .pure ()

theorem talks_ack (a b : Port) : Talks a b (writeAck a) (readAck b) () () :=
  ⟨[.left (Raw.store ACK)], writeAck_runs a, readAck_runs b⟩

/-! ## Strings -/

/-- The characters of a C string, without the zero that ends it. -/
structure CString where
  chars : List NnByte
  noNul : 0 ∉ chars
  deriving DecidableEq

namespace CString

/-- The bytes of the array that a `char *` to the string points to. -/
def bytes (str : CString) : List NnByte :=
  str.chars ++ [0]

/-- The string that starts an array.  An array without a zero in it has no end; the string is cut
off where the array ends. -/
def ofBytes (bs : List NnByte) : CString where
  chars := bs.takeWhile (· ≠ 0)
  noNul h := by
    simpa using List.mem_takeWhile_imp h

/-- The first `n` characters. -/
def take (n : Nat) (str : CString) : CString where
  chars := str.chars.take n
  noNul h := str.noNul (List.mem_of_mem_take h)

theorem take_of_le {n : Nat} {str : CString} (h : str.chars.length ≤ n) : str.take n = str := by
  cases str
  simpa [take] using h

@[simp] theorem bytes_length (str : CString) : str.bytes.length = str.chars.length + 1 := by
  simp [bytes]

/-- Of an array that was copied in part, the string is what was copied. -/
theorem ofBytes_take (n : Nat) (str : CString) : ofBytes (str.bytes.take n) = str.take n := by
  have hne : ∀ c ∈ str.chars.take n, decide (c ≠ 0) = true := by
    intro c hc
    have hmem : c ∈ str.chars := List.mem_of_mem_take hc
    exact decide_eq_true fun h => str.noNul (h ▸ hmem)
  have hzero : (List.take (n - str.chars.length) [(0 : NnByte)]).takeWhile (· ≠ 0) = [] := by
    cases n - str.chars.length <;> simp
  simp only [ofBytes, take, bytes, mk.injEq]
  rw [List.take_append, List.takeWhile_append_of_pos hne, hzero, List.append_nil]

end CString

/-- `NnUint bytes = std::strlen(str) + 1`. -/
def stringBytes (str : CString) : NnUint :=
  UInt32.ofNat (str.chars.length + 1)

def writeString (socket : Port) (str : CString) : NetIo Unit := do
  let bytes := stringBytes str
  Io.writeRaw socket bytes
  Io.write socket (str.bytes.take bytes.toNat)

def readString (socket : Port) : NetIo CString := do
  let bytes ← Io.readRaw NnUint socket
  let str ← Io.read socket bytes.toNat
  return CString.ofBytes str

/-- What is left of a string after its length has been cut to 32 bits. -/
def CString.sent (str : CString) : CString :=
  str.take (stringBytes str).toNat

theorem stringBytes_toNat_le (str : CString) :
    (stringBytes str).toNat ≤ str.bytes.length := by
  rw [stringBytes, CString.bytes_length, UInt32.toNat_ofNat']
  exact Nat.mod_le ..

theorem talks_string (a b : Port) (str : CString) :
    Talks a b (writeString a str) (readString b) () str.sent := by
  have hlen : (str.bytes.take (stringBytes str).toNat).length = (stringBytes str).toNat :=
    List.length_take_of_le (stringBytes_toNat_le str)
  refine (Talks.raw a b (stringBytes str)).bind ?_
  have h := (Talks.toRight (ε := String) (a := a) (b := b) hlen).bind_pure CString.ofBytes
  rwa [CString.ofBytes_take] at h

/-- The length with the final zero fits a `NnUint`. -/
def CString.Short (str : CString) : Prop :=
  str.chars.length + 1 < 2 ^ 32

theorem CString.sent_eq {str : CString} (h : str.Short) : str.sent = str := by
  apply take_of_le
  rw [stringBytes, UInt32.toNat_ofNat', Nat.mod_eq_of_lt h]
  exact Nat.le_succ _

/-! ## The sockets between the root and the workers -/

def ROOT_SOCKET_INDEX : Nat := 0

/-- The root drives one end of each link, thread 0 of the worker the other one. -/
theorem rootHub (cap : Port → Nat) {ws : List Nat} (hnodup : ws.Nodup) (hws : ∀ w ∈ ws, w ≠ 0) :
    Hub (mainNet cap) (0, 0) (fun w => (w, 0)) (fun w => (0, w - 1))
      (fun w => (w, ROOT_SOCKET_INDEX)) ws where
  nodup := hnodup
  party_inj _ _ _ _ h := congrArg Prod.fst h
  near _ _ := rfl
  far _ _ := rfl
  joined w hw := by
    have h := farEnd_port (hws w hw)
    simpa [mainNet, port, getSocketIndexForNode, ROOT_SOCKET_INDEX, hws w hw] using h
  away w hw h := hws w hw (congrArg Prod.fst h)

end Wire
end Network
end PrefillOpt
