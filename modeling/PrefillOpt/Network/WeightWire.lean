import PrefillOpt.Network.ConfigWire

/-!
# WeightWire — the weights on their way to the workers

`NnRootWeightLoader::writeWeight` and `finish` send a stream of records that ends with a name size
of zero; `NnWorkerWeightReader::read` replays it on the executor of the worker.
-/

namespace PrefillOpt
namespace Network
namespace Wire

open Lib

/-- The arguments of one `writeWeight` or one `loadWeight`. -/
structure WeightCall where
  opName : CString
  opIndex : NnUint
  offset : NnSize
  nBytes : NnSize
  weight : List.Vector NnByte nBytes.toNat

/-! ## The executor of a worker -/

/-- An exception that the reader looks at, or an `assert` that ends the process. -/
inductive LoadError where
  | invalidArgument (what : String)
  | assertion (cond : String)
  deriving DecidableEq

/-- What a load needs of an executor: the ops of the node, and what its devices do with a weight
for one of their ops. -/
structure NnExecutor (σ : Type) where
  nodeConfig : NnNodeConfig
  segmentLoadWeight :
    (segmentIndex opIndex : Nat) → (offset nBytes : NnSize) → List NnByte → σ → Except String σ

/-- The first op with that index and name: its segment and its place there. -/
def locateOp (nodeConfig : NnNodeConfig) (name : CString) (opIndex : NnUint) :
    Option (Nat × Nat) :=
  nodeConfig.segments.toList.zipIdx.findSome? fun (segmentConfig, segmentIndex) =>
    segmentConfig.ops.toList.zipIdx.findSome? fun (opConfig, i) =>
      if opConfig.index = opIndex ∧ opConfig.name = name then some (segmentIndex, i) else none

/-- The text of a C string, one character for each byte. -/
def CString.text (str : CString) : String :=
  String.ofList (str.chars.map fun c => Char.ofNat c.toNat)

def missingOp : String := "Cannot locate op by name: "

section Loads

variable {σ : Type} (ex : NnExecutor σ)

def loadWeight (call : WeightCall) (s : σ) : Except LoadError σ :=
  match locateOp ex.nodeConfig call.opName call.opIndex with
  | some (segmentIndex, i) =>
      (ex.segmentLoadWeight segmentIndex i call.offset call.nBytes call.weight.toList s).mapError
        .assertion
  | none => .error (.invalidArgument (missingOp ++ call.opName.text))

/-- `std::strncmp(what, "Cannot locate op by name:", 24) == 0`. -/
def isMissingOpByName (what : String) : Bool :=
  what.toList.take 24 = "Cannot locate op by name:".toList.take 24

/-- The `try` block around a load: an op that the worker does not have is passed over. -/
def tryLoadWeight (call : WeightCall) (s : σ) : Except LoadError σ :=
  match loadWeight ex call s with
  | .error (.invalidArgument what) =>
      if isMissingOpByName what then .ok s else .error (.invalidArgument what)
  | result => result

theorem isMissingOpByName_missingOp (name : String) :
    isMissingOpByName (missingOp ++ name) = true := by
  have hlen : 24 ≤ missingOp.toList.length := by decide
  have htext : missingOp.toList.take 24 = "Cannot locate op by name:".toList.take 24 := by decide
  rw [isMissingOpByName, String.toList_append, List.take_append_of_le_length hlen, htext]
  exact decide_eq_true rfl

/-- The worker has an op for the call. -/
def owns (call : WeightCall) : Bool :=
  (locateOp ex.nodeConfig call.opName call.opIndex).isSome

/-- A load for an op that the worker does not have changes nothing. -/
theorem tryLoadWeight_of_not_owns {call : WeightCall} (h : owns ex call = false) (s : σ) :
    tryLoadWeight ex call s = .ok s := by
  have hnone : locateOp ex.nodeConfig call.opName call.opIndex = none :=
    Option.not_isSome_iff_eq_none.1 (by simpa [owns] using h)
  simp only [tryLoadWeight, loadWeight, hnone, isMissingOpByName_missingOp, if_true]

theorem tryLoadWeight_of_owns {call : WeightCall} (h : owns ex call = true) (s : σ) :
    tryLoadWeight ex call s = loadWeight ex call s := by
  rcases Option.isSome_iff_exists.1 h with ⟨⟨segmentIndex, i⟩, hsome⟩
  simp only [tryLoadWeight, loadWeight, hsome]
  cases ex.segmentLoadWeight segmentIndex i call.offset call.nBytes call.weight.toList s <;> rfl

/-- The calls one after the other. -/
def replay (calls : List WeightCall) (s : σ) : Except LoadError σ :=
  calls.foldlM (fun s call => tryLoadWeight ex call s) s

/-- Only the calls for the worker's own ops, and without the `try` block. -/
def ownLoads (calls : List WeightCall) (s : σ) : Except LoadError σ :=
  (calls.filter (owns ex)).foldlM (fun s call => loadWeight ex call s) s

theorem replay_eq_ownLoads (calls : List WeightCall) (s : σ) :
    replay ex calls s = ownLoads ex calls s := by
  induction calls generalizing s with
  | nil => rfl
  | cons call calls ih =>
      rw [replay, List.foldlM_cons]
      cases hown : owns ex call with
      | false =>
          rw [tryLoadWeight_of_not_owns ex hown, ownLoads, List.filter_cons_of_neg (by simp [hown])]
          exact ih s
      | true =>
          rw [tryLoadWeight_of_owns ex hown, ownLoads, List.filter_cons_of_pos hown,
            List.foldlM_cons]
          cases loadWeight ex call s with
          | error e => rfl
          | ok s' => exact ih s'

end Loads

/-! ## The root's side -/

def writeWeight (nodeIndex : Nat) (call : WeightCall) : NetIo Unit := do
  let nameSize := stringBytes call.opName
  let socket : Port := (0, nodeIndex - 1)
  Io.writeRaw socket nameSize
  Io.write socket (call.opName.bytes.take nameSize.toNat)
  Io.writeRaw socket call.opIndex
  Io.writeRaw socket call.offset
  Io.writeRaw socket call.nBytes
  Io.write socket call.weight.toList

def finish (nNodes : Nat) : NetIo Unit :=
  Io.each (fun socketIndex => do
      let zeroSize : NnUint := 0
      Io.writeRaw (0, socketIndex) zeroSize
      readAck (0, socketIndex))
    (List.range (nNodes - 1))

/-! ## The worker's side -/

structure NnWorkerWeightReader (σ : Type) where
  tempSize : NnUint
  /-- What the loads have made of the devices. -/
  devices : σ
  /-- The calls of `executor->loadWeight`, in order. -/
  issued : List WeightCall

/-- The size of `temp` after `allocate`, whose parameter is a `NnUint`. -/
def allocate (tempSize : NnUint) (size : NnUint) : NnUint :=
  if tempSize < size then size else tempSize

def LoadError.what : LoadError → String
  | .invalidArgument what => what
  | .assertion cond => cond

section Read

variable {σ : Type} (ex : NnExecutor σ) (socket : Port)

/-- `while (true)` with a bound on its rounds. -/
def readLoop : Nat → NnWorkerWeightReader σ → NetIo (NnWorkerWeightReader σ)
  | 0, _ => throw "still reading"
  | fuel + 1, reader => do
      let nameSize ← Io.readRaw NnUint socket
      if nameSize = 0 then
        writeAck socket
        return { reader with tempSize := 0 }
      else
        let opName ← Io.read socket nameSize.toNat
        let opIndex ← Io.readRaw NnUint socket
        let offset ← Io.readRaw NnSize socket
        let nBytes ← Io.readRaw NnSize socket
        let tempSize := allocate reader.tempSize nBytes.toUInt32
        if tempSize.toNat < nBytes.toNat then
          throw "the weight does not fit temp"
        else
          let temp ← Io.read socket nBytes.toNat
          let call : WeightCall :=
            ⟨CString.ofBytes opName, opIndex, offset, nBytes, byteArray nBytes.toNat temp⟩
          match tryLoadWeight ex call reader.devices with
          | .ok devices => readLoop fuel ⟨tempSize, devices, reader.issued ++ [call]⟩
          | .error e => throw e.what

end Read

/-! ## Records -/

/-- The words of one `writeWeight`. -/
def record (call : WeightCall) : List (Say NnByte) :=
  [.left (Raw.store (stringBytes call.opName)),
    .left (call.opName.bytes.take (stringBytes call.opName).toNat),
    .left (Raw.store call.opIndex), .left (Raw.store call.offset), .left (Raw.store call.nBytes),
    .left call.weight.toList]

/-- The terminator and the answer to it. -/
def terminator : List (Say NnByte) :=
  [.left (Raw.store (0 : NnUint)), .right (Raw.store ACK)]

/-- What a record may be: a name whose size can be told from the terminator, and a payload whose
size `allocate` is told in full. -/
structure WeightCall.Fits (call : WeightCall) : Prop where
  name : call.opName.Short
  payload : call.nBytes.toNat < 2 ^ 32

theorem writeWeight_runs (w : Nat) (call : WeightCall) :
    Runs (writeWeight w call) ((record call).map (Say.atLeft (0, w - 1))) () := by
  refine (Runs.writeRaw _ _).bind ?_
  refine (Runs.write _ _).bind ?_
  iterate 3 refine (Runs.writeRaw _ _).bind ?_
  exact .write _ _

theorem stringBytes_ne_zero {name : CString} (h : name.Short) : stringBytes name ≠ 0 := by
  intro hzero
  have hnat := congrArg UInt32.toNat hzero
  rw [stringBytes, UInt32.toNat_ofNat', Nat.mod_eq_of_lt h] at hnat
  exact Nat.succ_ne_zero _ hnat

/-- `allocate` makes `temp` large enough for every payload that is smaller than 4 GiB. -/
theorem le_allocate {tempSize : NnUint} {nBytes : NnSize} (h : nBytes.toNat < 2 ^ 32) :
    nBytes.toNat ≤ (allocate tempSize nBytes.toUInt32).toNat := by
  have hsize : nBytes.toUInt32.toNat = nBytes.toNat := by
    rw [UInt64.toNat_toUInt32]
    exact Nat.mod_eq_of_lt h
  unfold allocate
  split_ifs with hlt
  · exact hsize.ge
  · have hle : nBytes.toUInt32.toNat ≤ tempSize.toNat := Nat.le_of_not_lt hlt
    exact hsize ▸ hle

section Runs

variable {σ : Type} (ex : NnExecutor σ) (socket : Port)

/-- One round of the loop takes one record and issues its load. -/
theorem readLoop_record {call : WeightCall} (hfits : call.Fits) {fuel : Nat}
    {reader end' : NnWorkerWeightReader σ} {devices : σ} {es : List (LEv Port NnByte)}
    (hload : tryLoadWeight ex call reader.devices = .ok devices)
    (hrest : Runs (readLoop ex socket fuel
      ⟨allocate reader.tempSize call.nBytes.toUInt32, devices, reader.issued ++ [call]⟩) es end') :
    Runs (readLoop ex socket (fuel + 1) reader)
      ((record call).map (Say.atRight socket) ++ es) end' := by
  have hname : (call.opName.bytes.take (stringBytes call.opName).toNat).length
      = (stringBytes call.opName).toNat := List.length_take_of_le (stringBytes_toNat_le _)
  have hwhole : CString.ofBytes (call.opName.bytes.take (stringBytes call.opName).toNat)
      = call.opName := (CString.ofBytes_take _ _).trans (CString.sent_eq hfits.name)
  refine (Runs.readRaw socket (stringBytes call.opName)).bind ?_
  rw [if_neg (stringBytes_ne_zero hfits.name)]
  refine (Runs.read hname).bind ?_
  refine (Runs.readRaw socket call.opIndex).bind ?_
  refine (Runs.readRaw socket call.offset).bind ?_
  refine (Runs.readRaw socket call.nBytes).bind ?_
  rw [if_neg (Nat.not_lt.2 (le_allocate hfits.payload))]
  refine (Runs.read call.weight.toList_length).bind ?_
  simp only [hwhole, byteArray_toList]
  rw [hload]
  exact hrest

/-- The loop replays a whole stream and stops at its terminator. -/
theorem readLoop_runs {calls : List WeightCall} (hfits : ∀ call ∈ calls, call.Fits) {fuel : Nat}
    (hfuel : calls.length < fuel) {reader : NnWorkerWeightReader σ} {devices : σ}
    (hload : replay ex calls reader.devices = .ok devices) :
    Runs (readLoop ex socket fuel reader)
      ((calls.flatMap record ++ terminator).map (Say.atRight socket))
      ⟨0, devices, reader.issued ++ calls⟩ := by
  induction calls generalizing fuel reader with
  | nil =>
      cases fuel with
      | zero => exact absurd hfuel (Nat.lt_irrefl 0)
      | succ fuel =>
          have hdevices : reader.devices = devices := Except.ok.inj hload
          refine (Runs.readRaw socket (0 : NnUint)).bind ?_
          rw [if_pos rfl, List.append_nil, ← hdevices]
          exact (writeAck_runs socket).bind (.pure _)
  | cons call calls ih =>
      cases fuel with
      | zero => exact absurd hfuel (Nat.not_lt_zero _)
      | succ fuel =>
          rw [replay, List.foldlM_cons] at hload
          cases hstep : tryLoadWeight ex call reader.devices with
          | error e =>
              rw [hstep] at hload
              cases hload
          | ok next =>
              rw [hstep] at hload
              let reader' : NnWorkerWeightReader σ :=
                ⟨allocate reader.tempSize call.nBytes.toUInt32, next, reader.issued ++ [call]⟩
              have hload' : replay ex calls reader'.devices = .ok devices := hload
              have hrest := ih (fun c hc => hfits c (List.mem_cons_of_mem _ hc))
                (Nat.lt_of_succ_lt_succ hfuel) hload'
              have hround := readLoop_record ex socket (hfits call (List.mem_cons_self ..)) hstep
                hrest
              simpa [reader', List.append_assoc] using hround

/-- The bytes of a stream, the terminator included. -/
def stream (calls : List WeightCall) : List NnByte :=
  (calls.flatMap record ++ terminator).flatMap Say.fromLeft

/-- The only answer to a stream is the one to its terminator. -/
theorem stream_answer (calls : List WeightCall) :
    (calls.flatMap record ++ terminator).flatMap Say.fromRight = Raw.store ACK := by
  have hrecords : (calls.flatMap record).flatMap Say.fromRight = [] := by
    refine List.flatMap_eq_nil_iff.2 fun word hword => ?_
    rcases List.mem_flatMap.1 hword with ⟨call, _, hword⟩
    simp only [record, List.mem_cons, List.not_mem_nil, or_false] at hword
    rcases hword with rfl | rfl | rfl | rfl | rfl | rfl <;> rfl
  rw [List.flatMap_append, hrecords, List.nil_append]
  rfl

/-- Whatever follows the terminator, the reader takes the bytes up to it and sends one
acknowledgement. -/
theorem readLoop_exec {calls : List WeightCall} (hfits : ∀ call ∈ calls, call.Fits) {fuel : Nat}
    (hfuel : calls.length < fuel) {reader : NnWorkerWeightReader σ} {devices : σ}
    (hload : replay ex calls reader.devices = .ok devices) {inc : Port → Mem NnByte}
    (hinc : (inc socket).slice 0 (stream calls).length = stream calls) :
    (readLoop ex socket fuel reader).run.exec inc
      = ⟨fun a => if a = socket then Raw.store ACK else [],
          fun a => if a = socket then (stream calls).length else 0,
          .ok ⟨0, devices, reader.issued ++ calls⟩⟩ := by
  have hrun := readLoop_runs ex socket hfits hfuel hload
  have hin : ∀ a, ins a ((calls.flatMap record ++ terminator).map (Say.atRight socket))
      = if socket = a then stream calls else [] := fun a => ins_atRight a socket _
  have hexec : (readLoop ex socket fuel reader).run.exec inc = _ := Trace.exec_eq hrun fun a => by
    rw [hin]
    by_cases h : socket = a
    · subst h
      rw [if_pos rfl, hinc]
    · rw [if_neg h]
      exact (Mem.slice_zero ..).symm
  rw [hexec]
  congr 1
  · funext a
    rw [outs_atRight, stream_answer]
    exact if_congr eq_comm rfl rfl
  · funext a
    rw [hin, apply_ite List.length]
    exact if_congr eq_comm rfl rfl

end Runs

/-! ## The whole cluster -/

/-- The calls for one worker. -/
def callsOf (w : Nat) (calls : List (Nat × WeightCall)) : List WeightCall :=
  (calls.filter fun call => call.1 = w).map Prod.snd

section Cluster

variable {σ : Type}

/-- The root: some sequence of `writeWeight` calls, then `finish`. -/
def sendWeights (nNodes : Nat) (calls : List (Nat × WeightCall)) : NetIo Unit := do
  Io.each (fun call => writeWeight call.1 call.2) calls
  finish nNodes

/-- The workers are the nodes from 1 on. -/
def isWorker (nNodes : Nat) (p : Party) : Prop :=
  p.2 = 0 ∧ p.1 ∈ List.range' 1 (nNodes - 1)

instance (nNodes : Nat) (p : Party) : Decidable (isWorker nNodes p) :=
  inferInstanceAs (Decidable (_ ∧ _))

/-- Every worker starts with its executor, the state `s w` of its devices and no `temp`. -/
def weightStart (nNodes fuel : Nat) (calls : List (Nat × WeightCall)) (ex : Nat → NnExecutor σ)
    (s : Nat → σ) :
    Lib.Config Party Port NnByte (Except String (Option (NnWorkerWeightReader σ))) where
  proc p :=
    if p = (0, 0) then (sendWeights nNodes calls >>= fun _ => pure none : NetIo _).run
    else if isWorker nNodes p then
      (readLoop (ex p.1) (p.1, ROOT_SOCKET_INDEX) fuel ⟨0, s p.1, []⟩ >>= fun r => pure (some r)).run
    else .ret (.ok none)
  sent _ := []

/-- Every worker has issued exactly its own calls, in order. -/
def weightEnd (nNodes : Nat) (calls : List (Nat × WeightCall)) (s : Nat → σ) (p : Party) :
    Except String (Option (NnWorkerWeightReader σ)) :=
  if isWorker nNodes p then .ok (some ⟨0, s p.1, callsOf p.1 calls⟩) else .ok none

/-- What the root does for the cluster: the calls, and the end of the stream of each worker. -/
abbrev Task := (Nat × WeightCall) ⊕ Nat

def Task.dest : Task → Nat
  | .inl call => call.1
  | .inr socketIndex => socketIndex + 1

def Task.words : Task → List (Say NnByte)
  | .inl call => record call.2
  | .inr _ => terminator

def tasks (nNodes : Nat) (calls : List (Nat × WeightCall)) : List Task :=
  calls.map .inl ++ (List.range (nNodes - 1)).map .inr

theorem sendWeights_runs (nNodes : Nat) (calls : List (Nat × WeightCall)) :
    Runs (sendWeights nNodes calls)
      ((tasks nNodes calls).flatMap fun t => t.words.map (Say.atLeft (0, t.dest - 1))) () := by
  have hcalls := Runs.each calls fun call _ => writeWeight_runs call.1 call.2
  have hfinish : Runs (finish nNodes) ((List.range (nNodes - 1)).flatMap fun socketIndex =>
      terminator.map (Say.atLeft (0, socketIndex))) () :=
    Runs.each _ fun socketIndex _ => (Runs.writeRaw _ _).bind (readAck_runs _)
  have hall := hcalls.bind (f := fun _ => finish nNodes) hfinish
  simpa [sendWeights, tasks, List.flatMap_append, List.flatMap_map, Task.words, Task.dest] using hall

/-- Among the tasks, those for a worker are its calls and then the end of its stream. -/
theorem tasks_words {nNodes w : Nat} (hw : w ∈ List.range' 1 (nNodes - 1))
    (calls : List (Nat × WeightCall)) :
    ((tasks nNodes calls).filter fun t => t.dest = w).flatMap Task.words
      = (callsOf w calls).flatMap record ++ terminator := by
  have hends : ((List.range (nNodes - 1)).filter fun socketIndex => socketIndex + 1 = w)
      = [w - 1] := by
    have hbounds := List.mem_range'_1.1 hw
    have hmem : w - 1 ∈ List.range (nNodes - 1) := List.mem_range.2 (by omega)
    have hone := List.filter_eq (l := List.range (nNodes - 1)) (w - 1)
    rw [List.count_eq_one_of_mem List.nodup_range hmem] at hone
    have hsame : ∀ socketIndex ∈ List.range (nNodes - 1),
        decide (socketIndex + 1 = w) = decide (socketIndex = w - 1) := by
      intro socketIndex _
      exact decide_eq_decide.2 (by omega)
    rw [List.filter_congr hsame]
    exact hone
  have hcalls : (calls.filter ((fun t : Task => decide (t.dest = w)) ∘ Sum.inl)).flatMap
      (Task.words ∘ Sum.inl) = (callsOf w calls).flatMap record := by
    rw [callsOf, List.flatMap_map]
    rfl
  have hrest : ((List.range (nNodes - 1)).filter
      ((fun t : Task => decide (t.dest = w)) ∘ Sum.inr)).flatMap (Task.words ∘ Sum.inr)
      = terminator := by
    have hfilter : ((fun t : Task => decide (t.dest = w)) ∘ Sum.inr)
        = fun socketIndex => decide (socketIndex + 1 = w) := rfl
    rw [hfilter, hends]
    exact List.append_nil _
  rw [tasks, List.filter_append, List.filter_map, List.filter_map, List.flatMap_append,
    List.flatMap_map, List.flatMap_map]
  exact congrArg₂ _ hcalls hrest

theorem callsOf_fits {calls : List (Nat × WeightCall)} (hfits : ∀ call ∈ calls, call.2.Fits)
    (w : Nat) : ∀ call ∈ callsOf w calls, call.Fits := by
  intro call hcall
  rcases List.mem_map.1 hcall with ⟨c, hc, rfl⟩
  exact hfits c (List.mem_filter.1 hc).1

theorem callsOf_fuel {calls : List (Nat × WeightCall)} {fuel : Nat} (hfuel : calls.length < fuel)
    (w : Nat) : (callsOf w calls).length < fuel := by
  have hle : (callsOf w calls).length ≤ calls.length := by
    rw [callsOf, List.length_map]
    exact List.length_filter_le ..
  exact Nat.lt_of_le_of_lt hle hfuel

/-- Whatever sequence of records the root sends to the workers, in whatever order between them:
every worker issues exactly its own calls, the loads of ops it does not have change nothing, it
answers the terminator once, and no byte is left over or waited for. -/
theorem weight_stream_completes (cap : Port → Nat) {nNodes fuel : Nat}
    {calls : List (Nat × WeightCall)} {ex : Nat → NnExecutor σ} {s s' : Nat → σ}
    (hdest : ∀ call ∈ calls, call.1 ∈ List.range' 1 (nNodes - 1))
    (hfits : ∀ call ∈ calls, call.2.Fits) (hfuel : calls.length < fuel)
    (hload : ∀ w ∈ List.range' 1 (nNodes - 1),
      ownLoads (ex w) (callsOf w calls) (s w) = .ok (s' w)) :
    Completes (mainNet cap) (weightStart nNodes fuel calls ex s) (weightEnd nNodes calls s') := by
  have hworkers : ∀ w ∈ List.range' 1 (nNodes - 1), w ≠ 0 := by
    intro w hw
    have hone : 1 ≤ w := (List.mem_range'_1.1 hw).1
    exact Nat.ne_of_gt hone
  have hroot : ¬ isWorker nNodes (0, 0) := fun h => hworkers 0 h.2 rfl
  have htasks : ∀ t ∈ tasks nNodes calls, t.dest ∈ List.range' 1 (nNodes - 1) := by
    intro t ht
    rcases List.mem_append.1 ht with ht | ht
    · rcases List.mem_map.1 ht with ⟨call, hcall, rfl⟩
      exact hdest call hcall
    · rcases List.mem_map.1 ht with ⟨socketIndex, hsocket, rfl⟩
      have hlt := List.mem_range.1 hsocket
      exact List.mem_range'_1.2 ⟨Nat.le_add_left 1 socketIndex, by simp only [Task.dest]; omega⟩
  refine (rootHub cap List.nodup_range' hworkers).completes_tasks (tasks nNodes calls) Task.dest
    htasks Task.words rfl ?_ ?_ ?_
  · have hrun := (sendWeights_runs nNodes calls).bind
      (f := fun _ => pure (none : Option (NnWorkerWeightReader σ))) (Runs.pure none)
    rw [List.append_nil] at hrun
    simp only [weightStart, weightEnd, if_true, if_neg hroot]
    exact hrun
  · intro w hw
    have hw₀ : ((w, 0) : Party) ≠ (0, 0) := fun h => hworkers w hw (congrArg Prod.fst h)
    have hisWorker : isWorker nNodes (w, 0) := ⟨rfl, hw⟩
    have hreplay : replay (ex w) (callsOf w calls) (s w) = .ok (s' w) :=
      (replay_eq_ownLoads ..).trans (hload w hw)
    let reader : NnWorkerWeightReader σ := ⟨0, s w, []⟩
    have hloop : Runs (readLoop (ex w) (w, ROOT_SOCKET_INDEX) fuel reader) _ _ :=
      readLoop_runs _ _ (callsOf_fits hfits w) (callsOf_fuel hfuel w) hreplay
    have hrun := hloop.bind (f := fun r => pure (some r)) (Runs.pure _)
    rw [List.append_nil] at hrun
    rw [tasks_words hw]
    simp only [weightStart, weightEnd, if_neg hw₀, if_pos hisWorker]
    exact hrun
  · intro p hp hps
    have hidle : ¬ isWorker nNodes p := fun h => hps p.1 h.2 (Prod.ext rfl h.1)
    simp only [weightStart, weightEnd, if_neg hp, if_neg hidle]

/-- Besides `weight_stream_completes`: a reader that is given the bytes written for it, with
anything behind them, takes these bytes and no more, sends one acknowledgement and has then issued
these calls. -/
theorem weight_stream_replayed (cap : Port → Nat) {nNodes fuel : Nat}
    {calls : List (Nat × WeightCall)} {ex : Nat → NnExecutor σ} {s s' : Nat → σ}
    (hdest : ∀ call ∈ calls, call.1 ∈ List.range' 1 (nNodes - 1))
    (hfits : ∀ call ∈ calls, call.2.Fits) (hfuel : calls.length < fuel)
    (hload : ∀ w ∈ List.range' 1 (nNodes - 1),
      ownLoads (ex w) (callsOf w calls) (s w) = .ok (s' w)) :
    Completes (mainNet cap) (weightStart nNodes fuel calls ex s) (weightEnd nNodes calls s') ∧
      ∀ w ∈ List.range' 1 (nNodes - 1), ∀ inc : Port → Mem NnByte,
        (inc (w, ROOT_SOCKET_INDEX)).slice 0 (stream (callsOf w calls)).length
            = stream (callsOf w calls) →
          (readLoop (ex w) (w, ROOT_SOCKET_INDEX) fuel ⟨0, s w, []⟩).run.exec inc
            = ⟨fun a => if a = (w, ROOT_SOCKET_INDEX) then Raw.store ACK else [],
                fun a => if a = (w, ROOT_SOCKET_INDEX) then (stream (callsOf w calls)).length else 0,
                .ok ⟨0, s' w, callsOf w calls⟩⟩ := by
  refine ⟨weight_stream_completes cap hdest hfits hfuel hload, fun w hw inc hinc => ?_⟩
  have hreplay : replay (ex w) (callsOf w calls) (s w) = .ok (s' w) :=
    (replay_eq_ownLoads ..).trans (hload w hw)
  exact readLoop_exec (ex w) _ (callsOf_fits hfits w) (callsOf_fuel hfuel w)
    hreplay hinc

end Cluster

section Runs

/-- A device with one byte of weight for the one op of `oneOp`. -/
def oneByteExecutor (name : CString) : NnExecutor (Mem NnByte) where
  nodeConfig := oneOp name
  segmentLoadWeight _ _ offset nBytes weight s :=
    if offset.toNat + nBytes.toNat ≤ 1 then .ok (s.store offset.toNat weight)
    else .error "offset + nBytes <= context->weightSize.nBytes"

/-- A load of one byte for op 0 of that name. -/
def oneByteCall (name : CString) : WeightCall :=
  ⟨name, 0, 0, 1, 5 ::ᵥ .nil⟩

theorem oneByteCall_fits {name : CString} (h : name.Short) : (oneByteCall name).Fits :=
  ⟨h, show (1 : NnSize).toNat < 2 ^ 32 by decide⟩

/-- The first call is for an op of the worker, the second one for an op that it does not have. -/
theorem weight_stream_replayed_twoCalls :
    let calls := [(1, oneByteCall (nameOf 1)), (1, oneByteCall (nameOf 2))]
    Completes (mainNet fun _ => 0)
      (weightStart 2 3 calls (fun _ => oneByteExecutor (nameOf 1)) fun _ _ => 0)
      (weightEnd 2 calls fun _ => Mem.store (fun _ => 0) 0 [5]) := by
  refine (weight_stream_replayed (fun _ => 0) ?_ ?_ (by decide) ?_).1
  · decide
  · have hshort : ∀ n, n < 3 → (oneByteCall (nameOf n)).Fits := fun n hn =>
      oneByteCall_fits (nameOf_short (by omega))
    intro call hcall
    simp only [List.mem_cons, List.not_mem_nil, or_false] at hcall
    rcases hcall with rfl | rfl
    · exact hshort 1 (by decide)
    · exact hshort 2 (by decide)
  · intro w hw
    have hone : w = 1 := List.mem_singleton.1 hw
    subst hone
    rfl

/-- A name whose length with the final zero is `2 ^ 32` has the size of the terminator. -/
theorem stringBytes_nameOf {n : Nat} (hn : n + 1 = 2 ^ 32) : stringBytes (nameOf n) = 0 := by
  rw [stringBytes, nameOf, List.length_replicate, hn]
  rfl

theorem readLoop_exec_of_zero {σ : Type} (ex : NnExecutor σ) (socket : Port) (fuel : Nat)
    (reader : NnWorkerWeightReader σ) {inc : Port → Mem NnByte}
    (hinc : (inc socket).slice 0 4 = Raw.store (0 : NnUint)) :
    ((readLoop ex socket (fuel + 1) reader).run.exec inc).result
      = .ok { reader with tempSize := 0 } := by
  have hrun : Runs (readLoop ex socket (fuel + 1) reader) (terminator.map (Say.atRight socket))
      { reader with tempSize := 0 } := by
    refine (Runs.readRaw socket (0 : NnUint)).bind (l := [.out socket (Raw.store ACK)]) ?_
    rw [if_pos rfl]
    exact (writeAck_runs socket).bind (l := []) (.pure _)
  have hexec : (readLoop ex socket (fuel + 1) reader).run.exec inc = _ :=
    Trace.exec_eq hrun fun a => by
    rw [ins_atRight]
    by_cases h : socket = a
    · subst h
      rw [if_pos rfl]
      exact hinc.symm
    · rw [if_neg h]
      exact (Mem.slice_zero ..).symm
  rw [hexec]

/-- Such a stream starts like the terminator. -/
theorem stream_of_zero {call : WeightCall} (h : stringBytes call.opName = 0) :
    ∃ rest, stream [call] = Raw.store (0 : NnUint) ++ rest := by
  refine ⟨((record call).tail ++ terminator).flatMap Say.fromLeft, ?_⟩
  calc stream [call]
      = (.left (Raw.store (stringBytes call.opName)) :: ((record call).tail ++ terminator)).flatMap
          Say.fromLeft := by rw [stream, List.flatMap_singleton]; rfl
    _ = Raw.store (0 : NnUint) ++ ((record call).tail ++ terminator).flatMap Say.fromLeft := by
        rw [List.flatMap_cons, h]
        rfl

theorem issues_nothing {call : WeightCall} (h : stringBytes call.opName = 0) {σ : Type}
    (ex : NnExecutor σ) (socket : Port) (fuel : Nat) (s : σ) :
    ¬ ∀ inc : Port → Mem NnByte,
      (inc socket).slice 0 (stream [call]).length = stream [call] →
        ((readLoop ex socket (fuel + 1) ⟨0, s, []⟩).run.exec inc).result = .ok ⟨0, s, [call]⟩ := by
  intro hclaim
  let inc : Port → Mem NnByte := fun _ => Mem.store (fun _ => 0) 0 (stream [call])
  have hinc : (inc socket).slice 0 (stream [call]).length = stream [call] := Mem.slice_store ..
  rcases stream_of_zero h with ⟨rest, hrest⟩
  have hfour : (inc socket).slice 0 4 = Raw.store (0 : NnUint) := by
    rw [hrest] at hinc
    exact (append_eq_slice_iff.1 hinc.symm).1.symm
  have hresult := (readLoop_exec_of_zero ex socket fuel ⟨0, s, []⟩ hfour).symm.trans (hclaim inc hinc)
  have hissued := congrArg NnWorkerWeightReader.issued (Except.ok.inj hresult)
  exact absurd hissued (List.cons_ne_nil call []).symm

/-- The worker takes a record with such a name for the end of the stream and issues no load. -/
theorem longName_ends_stream :
    ¬ ∀ inc : Port → Mem NnByte,
      (inc (1, ROOT_SOCKET_INDEX)).slice 0 (stream [oneByteCall (nameOf (2 ^ 32 - 1))]).length
          = stream [oneByteCall (nameOf (2 ^ 32 - 1))] →
        ((readLoop (oneByteExecutor (nameOf 1)) (1, ROOT_SOCKET_INDEX) 2
            ⟨0, fun _ => 0, []⟩).run.exec inc).result
          = .ok ⟨0, fun _ => 0, [oneByteCall (nameOf (2 ^ 32 - 1))]⟩ :=
  issues_nothing (stringBytes_nameOf (by decide)) _ _ 1 _

end Runs

end Wire
end Network
end PrefillOpt
