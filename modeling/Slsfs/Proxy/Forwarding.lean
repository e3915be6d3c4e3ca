import Slsfs.JsonReplacement
import Slsfs.Proxy.Affinity
import Slsfs.Proxy.WorkerSet

/-!
# Requests through the proxy

A client packs a request, the proxy repacks its data under the same header with another type, and
the worker unpacks it. The response takes the header of the request back: the proxy finds the job by
the key, the sequence and the salt in it and hands the packet to the client's connection. Direct
connections are off.

What is sent arrives, up to the size of a buffer: `serialize` computes it in 32 bits, and a payload
that is less than 57 bytes shorter than 2³² does not fit any more, since the header has 45 bytes and
the request 12.
-/

namespace Slsfs.Proxy

open LeveldbPack (Buf Key)
open Launcher

/-! ## The way to the worker

The proxy reads a packet from the client, takes its body, and makes a packet of its own for the
worker, with the header it has read. Both read what they need off a stream, and what comes after it
does not matter. -/

/-- What a new packet draws, and the bytes between the members of the request. -/
structure Gen where
  sequence : List.Vector UInt8 4
  randomSalt : List.Vector UInt8 4
  padding : List.Vector UInt8 2

/-- A request of a client. -/
structure ClientRequest where
  key : Key
  gen : Gen
  request : Jsre.Request
  payload : Buf

namespace ClientRequest

/-- The packet of a request. Its `datasize` is not set before `serialize` does it. -/
def packet (c : ClientRequest) : Pack.Packet where
  header := { type := .trigger, key := c.key, datasize := 0, sequence := c.gen.sequence
              randomSalt := c.gen.randomSalt }
  data := c.request.bytes c.gen.padding ++ c.payload

/-- `packet_create::mkdir`. -/
def mkdir (directory : Key) (gen : Gen) : ClientRequest :=
  ⟨directory, gen, ⟨.metadata, Jsre.MetaOperationT.mkdir.code, 0, 0⟩, []⟩

/-- `packet_create::ls`. -/
def ls (directory : Key) (gen : Gen) : ClientRequest :=
  ⟨directory, gen, ⟨.metadata, Jsre.MetaOperationT.ls.code, 0, 0⟩, []⟩

/-- `packet_create::write`. -/
def write (filename : Key) (gen : Gen) (buf : Buf) : ClientRequest :=
  ⟨filename, gen, ⟨.file, Jsre.OperationT.write.code, 0, UInt32.ofNat buf.length⟩, buf⟩

/-- `packet_create::read`. -/
def read (filename : Key) (gen : Gen) (size : UInt32) : ClientRequest :=
  ⟨filename, gen, ⟨.file, Jsre.OperationT.read.code, 0, size⟩, []⟩

/-- The part of the header by which jobs are told apart. -/
def fullKey (c : ClientRequest) : PacketHeader := ⟨c.key, c.gen.sequence, c.gen.randomSalt⟩

/-- The request as the members of a parser present it. -/
def parsed (c : ClientRequest) : Jsre.RequestParser :=
  ⟨c.key, c.request.type, c.request.operation, c.request.position, c.request.size, c.payload⟩

end ClientRequest

/-- The part of a header that `packet_header_full_key_compare` looks at. -/
def fullKey (h : Pack.PacketHeader) : PacketHeader := ⟨h.key, h.sequence, h.randomSalt⟩

/-- `start_trigger`: the header of a trigger, its body, and the rest of the stream. -/
def startTrigger (stream : Buf) : Option (Pack.PacketHeader × Buf × Buf) := do
  let (pack, rest) ← Pack.readPacket stream
  if pack.header.type = .trigger then return (pack.header, pack.data, rest) else none

/-- `start_trigger_post`: the packet of the job that is scheduled. -/
def startTriggerPost (body : Buf) (original : Pack.PacketHeader) : Pack.Packet where
  header := { original with type := .workerPushRequest }
  data := body

/-- `start_listen_commands` of the worker, for the packets it starts a job for. -/
def startListenCommands (stream : Buf) : Option (Pack.Packet × Buf) := do
  let (pack, rest) ← Pack.readPacket stream
  match pack.header.type with
  | .proxyjoin | .setTimer | .cacheTransfer => none
  | _ => return (pack, rest)

/-- A request on its way: the packet the worker starts a job for. `rest` and `rest'` are what
follows on the connections to the proxy and to the worker. -/
def toWorker (rest rest' : Buf) (c : ClientRequest) : Option Pack.Packet := do
  let bytes ← c.packet.serialize
  let (header, body, _) ← startTrigger (bytes ++ rest)
  let bytes ← (startTriggerPost body header).serialize
  let (pack, _) ← startListenCommands (bytes ++ rest')
  return pack

/-! ## The way back

The worker answers with the header of the request and the type `worker_response`, and the proxy
passes the packet on as it is. -/

/-- The response of `start_job`, with the result of the storage. -/
def respond (pack : Pack.Packet) (buf : Buf) : Pack.Packet where
  header := { pack.header with type := .workerResponse }
  data := buf

/-- `start_read_header` and `start_read_body` of the proxy's worker, for a response. -/
def readResponse (stream : Buf) : Option (Pack.Packet × Buf) := do
  let (pack, rest) ← Pack.readPacket stream
  if pack.header.type = .workerResponse then return (pack, rest) else none

/-- A response on its way: the packet whose header the proxy looks for among the jobs, and the
packet `send_request` of the client reads after the proxy has passed it on. -/
def toClient (rest rest' : Buf) (pack : Pack.Packet) (buf : Buf) :
    Option (Pack.Packet × Pack.Packet) := do
  let bytes ← (respond pack buf).serialize
  let (response, _) ← readResponse (bytes ++ rest)
  let bytes ← response.serialize
  let (received, _) ← Pack.readPacket (bytes ++ rest')
  return (response, received)

/-! ## The packets on both ways

Each hop reads what the one before has written, so the way is one rewriting for each hop. The size
in the header is set by `serialize`, and by that of the first sender already to what all others set
it to. -/

private theorem serialize_of_lt {p : Pack.Packet}
    (h : Pack.PacketHeader.bytesize + p.data.length < 2 ^ 32) :
    p.serialize = some (p.sealedHeader.dump ++ p.data) := by
  rw [Pack.Packet.serialize, if_pos h]

private theorem ClientRequest.packet_data_length (c : ClientRequest) :
    c.packet.data.length = Jsre.Request.sizeOf + c.payload.length := by
  rw [packet, List.length_append, Jsre.Request.bytes_length]

theorem toWorker_eq (rest rest' : Buf) (c : ClientRequest)
    (h : Pack.PacketHeader.bytesize + (Jsre.Request.sizeOf + c.payload.length) < 2 ^ 32) :
    toWorker rest rest' c
      = some ⟨{ c.packet.sealedHeader with type := .workerPushRequest }, c.packet.data⟩ := by
  rw [← c.packet_data_length] at h
  have hsent := serialize_of_lt h
  have hread := Pack.readPacket_serialize hsent rest
  have htrigger : startTrigger (c.packet.sealedHeader.dump ++ c.packet.data ++ rest)
      = some (c.packet.sealedHeader, c.packet.data, rest) := by
    rw [startTrigger, hread]
    rfl
  have hpushed : (startTriggerPost c.packet.data c.packet.sealedHeader).serialize = some _ :=
    serialize_of_lt h
  have hcommand := Pack.readPacket_serialize hpushed rest'
  simp only [toWorker, hsent, htrigger, hpushed, startListenCommands, hcommand,
    Option.bind_eq_bind, Option.bind_some]
  rfl

theorem toClient_eq (rest rest' : Buf) (pack : Pack.Packet) (buf : Buf)
    (h : Pack.PacketHeader.bytesize + buf.length < 2 ^ 32) :
    toClient rest rest' pack buf
      = some (⟨(respond pack buf).sealedHeader, buf⟩, ⟨(respond pack buf).sealedHeader, buf⟩) := by
  have hsent : (respond pack buf).serialize = some ((respond pack buf).sealedHeader.dump ++ buf) :=
    serialize_of_lt h
  have hread := Pack.readPacket_serialize hsent rest
  have hresponse : readResponse ((respond pack buf).sealedHeader.dump ++ buf ++ rest)
      = some (⟨(respond pack buf).sealedHeader, buf⟩, rest) := by
    rw [readResponse, hread]
    rfl
  have hagain : Pack.Packet.serialize ⟨(respond pack buf).sealedHeader, buf⟩ = some _ :=
    serialize_of_lt h
  have hreceived := Pack.readPacket_serialize hagain rest'
  simp only [toClient, hsent, hresponse, hagain, hreceived, Option.bind_eq_bind, Option.bind_some]
  rfl

/-! ## The job waits for its response

The response finds the job by its header. As long as no response with this header is handled for the
worker, no event takes the job from it: a closing worker keeps it too. So the first such response
completes it, whatever else has happened. -/

/-- The worker has the job under the header. -/
def Launcher.Waiting (s : Launcher) (w : ℕ) (header : PacketHeader) (job : ℕ) : Prop :=
  w < s.workerCount ∧ (s.workers w).startedJobs.lookup header = some job

section

variable {policy : Policy} {s s' : Launcher} {w job : ℕ} {header : PacketHeader}

private theorem waiting_setWorker {v : ℕ} {worker : Worker} (hs : s.Waiting w header job)
    (hkeep : v = w → worker.startedJobs.lookup header = some job) :
    (s.setWorker v worker).Waiting w header job := by
  refine ⟨hs.1, ?_⟩
  by_cases hv : v = w
  · subst hv
    rw [setWorker_workers_self]
    exact hkeep rfl
  · rw [setWorker_workers_of_ne _ _ (Ne.symm hv)]
    exact hs.2

/-- Only the handler of its own response takes a job from its worker. -/
theorem waiting_step {e : Event} (hne : e ≠ .handleResponse w header)
    (h : step policy s e = some s') (hs : s.Waiting w header job) : s'.Waiting w header job := by
  cases e with
  | schedule header => cases h; exact hs
  | processJob j pick =>
    obtain ⟨header', -, -, ⟨-, rfl⟩ | ⟨v, m, -, -, rfl⟩⟩ := step_processJob h
    · exact hs
    · refine waiting_setWorker (s := { s with posted := _, fileidToWorker := m }) hs ?_
      rintro rfl
      exact FiniteMap.lookup_emplace_of_some hs.2 _ _
  | processJobWithWorker header' pick =>
    obtain ⟨m, rfl⟩ := step_processJobWithWorker h
    exact hs
  | onWorkerResponse v header' =>
    obtain ⟨-, rfl⟩ := step_onWorkerResponse h
    exact hs
  | handleResponse v header' =>
    obtain ⟨-, rfl⟩ := step_handleResponse h
    rw [Launcher.handleResponse]
    split
    · exact hs
    · refine waiting_setWorker (s := { s with responses := _ }) hs ?_
      rintro rfl
      have hheader : header ≠ header' := by
        rintro rfl
        exact hne rfl
      rw [AList.lookup_erase_ne hheader]
      exact hs.2
  | close v toTransfer =>
    obtain ⟨-, rfl⟩ := step_close h
    obtain ⟨hworkers, hcount, -⟩ := close_workers s v toTransfer
    rw [Launcher.Waiting, hworkers, hcount]
    refine ⟨hs.1, ?_⟩
    by_cases hv : w = v
    · subst hv
      rw [Function.update_self]
      exact hs.2
    · rw [Function.update_of_ne hv]
      exact hs.2
  | addWorker =>
    obtain ⟨m, rest, rfl⟩ := step_addWorker h
    have hkeep : (s.setWorker s.workerCount ⟨true, ∅⟩).Waiting w header job :=
      waiting_setWorker hs fun heq ↦ absurd hs.1 (by rw [← heq]; exact lt_irrefl _)
    exact ⟨Nat.lt_succ_of_lt hs.1, hkeep.2⟩

/-- A job that is dispatched waits, unless another one with its header is there. -/
theorem waiting_dispatch {pick : Option ℕ} {key : Key} (hnum : s.Numbered)
    (hheader : s.jobs[job]? = some header) (h : step policy s (.processJob job pick) = some s')
    (hdispatch : dispatch s (.processJob job pick) = some (key, w))
    (hunique : ∀ j, (s.workers w).startedJobs.lookup header = some j → j = job) :
    s'.Waiting w header job := by
  obtain ⟨header', hheader', -, hcases⟩ := step_processJob h
  obtain rfl : header' = header := Option.some_inj.mp (hheader'.symm.trans hheader)
  rw [dispatch, hheader, Option.bind_some] at hdispatch
  obtain ⟨⟨v, t⟩, hbind, hv⟩ := Option.map_eq_some_iff.mp hdispatch
  cases hv
  rcases hcases with ⟨hnone, -⟩ | ⟨u, m, hsome, hvalid, rfl⟩
  · rw [hnone] at hbind
    cases hbind
  · obtain rfl : u = v := (Prod.mk.inj (Option.some_inj.mp (hsome.symm.trans hbind))).1
    refine ⟨hnum.valid_lt u hvalid, ?_⟩
    rw [startWrite, setWorker_workers_self, FiniteMap.lookup_emplace]
    cases hold : (s.workers u).startedJobs.lookup header' with
    | none => rfl
    | some j => rw [hunique j hold, Option.getD_some]

private theorem run_response (hs : s.Waiting w header job) :
    ∃ t, run (step policy) s [.onWorkerResponse w header, .handleResponse w header] = some t ∧
      t.completed = job :: s.completed := by
  have hposted : step policy s (.onWorkerResponse w header)
      = some { s with responses := (w, header) :: s.responses } := by
    rw [step, if_pos hs.1]
  have hhandled : step policy { s with responses := (w, header) :: s.responses }
      (.handleResponse w header) = some (Launcher.handleResponse
        { s with responses := ((w, header) :: s.responses).erase (w, header) } w header) := by
    rw [step, if_pos List.mem_cons_self]
  refine ⟨_, run_cons_eq_some.mpr ⟨_, hposted, run_cons_eq_some.mpr ⟨_, hhandled, rfl⟩⟩, ?_⟩
  have hlookup : (s.workers w).startedJobs.lookup header = some job := hs.2
  rw [Launcher.handleResponse, hlookup]

end

/-- **Requests and responses pass through the proxy unchanged.** The worker's parser presents the
request of the client. Whatever happens between its dispatch and its response, the response is
matched to its job, if no other job of the worker has the same key, sequence and salt, and it
reaches the client under the header of the request. -/
theorem request_forwarded {policy : Policy} (c : ClientRequest) (buf rest₁ rest₂ rest₃ rest₄ : Buf)
    (hpayload : Pack.PacketHeader.bytesize + (Jsre.Request.sizeOf + c.payload.length) < 2 ^ 32)
    (hbuf : Pack.PacketHeader.bytesize + buf.length < 2 ^ 32)
    {es fs : List Event} {s s' t : Launcher} {job w : ℕ} {pick : Option ℕ}
    (hbefore : run (step policy) Launcher.init es = some s)
    (hjob : s.jobs[job]? = some c.fullKey)
    (hstart : step policy s (.processJob job pick) = some s')
    (hdispatch : dispatch s (.processJob job pick) = some (c.key, w))
    (hunique : ∀ j, (s.workers w).startedJobs.lookup c.fullKey = some j → j = job)
    (hbetween : run (step policy) s' fs = some t)
    (hopen : ∀ e ∈ fs, e ≠ .handleResponse w c.fullKey) :
    ∃ pack response received, toWorker rest₁ rest₂ c = some pack ∧
      Jsre.requestParser pack = some c.parsed ∧
      toClient rest₃ rest₄ pack buf = some (response, received) ∧
      (∃ u, run (step policy) t [.onWorkerResponse w (fullKey response.header),
        .handleResponse w (fullKey response.header)] = some u ∧
        u.completed = job :: t.completed) ∧
      fullKey received.header = c.fullKey ∧ received.data = buf := by
  have hnum : s.Numbered :=
    invariant_run_of_step (fun _ _ _ h hs ↦ numbered_step h hs) hbefore numbered_init
  have hstarted : s'.Waiting w c.fullKey job :=
    waiting_dispatch hnum hjob hstart hdispatch hunique
  have hwaiting : t.Waiting w c.fullKey job :=
    invariant_run (C := fun _ e ↦ e ≠ .handleResponse w c.fullKey)
      (fun _ _ _ hne h hs ↦ waiting_step hne h hs) (meets_of_forall_mem hopen s') hbetween hstarted
  exact ⟨_, _, _, toWorker_eq rest₁ rest₂ c hpayload, Jsre.requestParser_bytes _ _ _ _,
    toClient_eq rest₃ rest₄ _ buf hbuf, run_response hwaiting, rfl, rfl⟩

/-- A write of one byte. -/
def oneByteWrite : ClientRequest :=
  .write (List.Vector.replicate 32 0)
    ⟨List.Vector.replicate 4 1, List.Vector.replicate 4 2, List.Vector.replicate 2 0⟩ [7]

/-- It goes to the only worker and comes back with its result. -/
theorem oneByteWrite_forwarded :
    ∃ s s', run (step .lowestLoad) Launcher.init [.addWorker, .schedule oneByteWrite.fullKey]
        = some s ∧
      step .lowestLoad s (.processJob 0 (some 0)) = some s' ∧
      ∃ pack response received, toWorker [] [] oneByteWrite = some pack ∧
        Jsre.requestParser pack = some oneByteWrite.parsed ∧
        toClient [] [] pack (ascii "OK") = some (response, received) ∧
        (∃ u, run (step .lowestLoad) s' [.onWorkerResponse 0 (fullKey response.header),
          .handleResponse 0 (fullKey response.header)] = some u ∧ u.completed = 0 :: s'.completed) ∧
        fullKey received.header = oneByteWrite.fullKey ∧ received.data = ascii "OK" := by
  have hall : ∀ s ∈ run (step .lowestLoad) Launcher.init
      [.addWorker, .schedule oneByteWrite.fullKey],
      s.jobs[0]? = some oneByteWrite.fullKey ∧
      (step .lowestLoad s (.processJob 0 (some 0))).isSome ∧
      dispatch s (.processJob 0 (some 0)) = some (oneByteWrite.key, 0) ∧
      (s.workers 0).startedJobs.lookup oneByteWrite.fullKey = none := by decide +kernel
  obtain ⟨s, hs⟩ := Option.isSome_iff_exists.mp (show (run (step .lowestLoad) Launcher.init
    [.addWorker, .schedule oneByteWrite.fullKey]).isSome by decide +kernel)
  obtain ⟨hjob, hstart, hdispatch, hnone⟩ := hall s hs
  obtain ⟨s', hs'⟩ := Option.isSome_iff_exists.mp hstart
  refine ⟨s, s', hs, hs', request_forwarded oneByteWrite (ascii "OK") [] [] [] [] (by decide)
    (by decide) hs hjob hs' hdispatch ?_ (run_nil s') ?_⟩
  · intro j hj
    rw [hnone] at hj
    cases hj
  · intro e he
    cases he

/-- **A payload of 2³² - 12 bytes.** Together with the request it makes 2³² bytes of data, which is
zero in the 32 bits of `datasize`, and the data is copied past a buffer that holds the header. -/
theorem longPayload_not_forwarded :
    ¬∀ (c : ClientRequest) (rest rest' : Buf), c.payload.length < 2 ^ 32 →
      ∃ pack, toWorker rest rest' c = some pack ∧ Jsre.requestParser pack = some c.parsed := by
  intro h
  obtain ⟨payload, hlength⟩ : ∃ payload : Buf, payload.length = 2 ^ 32 - 12 :=
    ⟨List.replicate (2 ^ 32 - 12) 0, List.length_replicate⟩
  have hlt : payload.length < 2 ^ 32 := by omega
  obtain ⟨pack, hpack, -⟩ := h (.write oneByteWrite.key oneByteWrite.gen payload) [] [] hlt
  have hnone : (ClientRequest.packet
      (.write oneByteWrite.key oneByteWrite.gen payload)).serialize = none := by
    rw [Pack.Packet.serialize, if_neg]
    rw [ClientRequest.packet_data_length, Pack.PacketHeader.bytesize, Jsre.Request.sizeOf]
    have hwritten :
        (ClientRequest.write oneByteWrite.key oneByteWrite.gen payload).payload = payload := rfl
    rw [hwritten]
    omega
  rw [toWorker, hnone] at hpack
  cases hpack

end Slsfs.Proxy
