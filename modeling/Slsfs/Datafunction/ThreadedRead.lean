import Slsfs.Datafunction.Threaded

/-!
# A read access by access

While nothing is pending and nothing is written, the handlers of the gets find the blocks as they
are. What can go wrong is on the side of the datafunction: a callback stores `ready` before it moves
its data to its place, so another one may find all places ready and collect a place whose data is
still to come. `ReadInv` says that the replies are put together from the data of the answers if that
does not happen, and that one of the callbacks replies. Several of them may: those that set the last
`ready` before any of them has scanned the places all collect them.
-/

namespace Slsfs.Datafunction.Threaded

open LeveldbPack Ssbd Ssbd.Access

variable {cfg : Config}

/-! ## The get of a block

Nothing is written during a read, so a get is answered with the bytes of its block whenever it is
handled. `GetInv` follows the answer from the server to its place in the vector, where it is once
the callback has moved it in. -/

/-- The packet is the get of a piece of the block. -/
structure IsGet (id : BlockId) (c : Chunk) (pack : Packet) : Prop where
  type : pack.header.type = .get
  block : blockId pack = id
  position : pack.header.position.toNat = c.offset
  datasize : pack.header.datasize.toNat = c.length

/-- The data of the answer, if the block has any bytes: as many as the piece is long, and those of
the block as far as it goes. -/
def Served (bytes : Buf) (c : Chunk) (data : Buf) : Prop :=
  bytes ≠ [] → data.length = c.length ∧
    ∀ k < c.length, c.offset + k < bytes.length → data[k]? = bytes[c.offset + k]?

/-- A get and its place in the vector, in a file whose block is to be read. -/
def GetInv (id : BlockId) (bytes : Buf) (c : Chunk) (ready : Bool) (buf : Buf) :
    Message ReadPhase → Prop
  | .unsent => ready = false
  | .requested pack => ready = false ∧ IsGet id c (arrived pack)
  | .running rest => ready = false ∧
    ((∃ stray pack, IsGet id c pack ∧ rest = startDbRead stray pack) ∨
      ∃ reply, rest = .done reply ∧ reply.data.length < 2 ^ 32 ∧ Served bytes c reply.data)
  | .callback (.answered data) => ready = false ∧ Served bytes c data
  | .callback (.moving data) => ready = true ∧ Served bytes c data
  | .callback (.scanning _) | .callback (.collecting _ _) | .done =>
    ready = true ∧ Served bytes c buf

section Get

variable {id : BlockId} {bytes buf : Buf} {c : Chunk} {ready : Bool}
  {store store' : Ssbd.Cell → Option Buf} {m m' : Message ReadPhase}

private theorem served_readReply {stray : ℕ → UInt8} {pack : Packet} (hget : IsGet id c pack)
    (hsmall : bytes.length < 2 ^ 64) {value : Option Buf} (hvalue : value.getD [] = bytes) :
    (Ssbd.Access.readReply stray pack value).data.length < 2 ^ 32 ∧
      Served bytes c (Ssbd.Access.readReply stray pack value).data := by
  have hlt := pack.header.datasize.toNat_lt
  cases value with
  | none => exact ⟨Nat.two_pow_pos 32, fun hne ↦ absurd hvalue.symm hne⟩
  | some block =>
    obtain rfl : block = bytes := hvalue
    refine ⟨?_, fun _ ↦ ⟨?_, fun k hk hinside ↦ ?_⟩⟩
    · rw [Ssbd.Access.readReply, Server.readBuffer_length]
      exact hlt
    · rw [Ssbd.Access.readReply, Server.readBuffer_length, hget.datasize]
    · rw [Ssbd.Access.readReply, hget.position, hget.datasize,
        Server.readBuffer_getElem? stray hsmall hk hinside]

private theorem GetInv.served {r : ReadRun} {i : ℕ} (h : GetInv id bytes c ready buf (r.message i))
    (hready : ready = true) (hmoved : r.isMoving i = false) : Served bytes c buf := by
  rw [ReadRun.isMoving] at hmoved
  cases hmessage : r.message i with
  | unsent | requested | running =>
    rw [hmessage] at h
    first | exact absurd (h.symm.trans hready) nofun | exact absurd (h.1.symm.trans hready) nofun
  | callback phase =>
    rw [hmessage] at h hmoved
    cases phase with
    | answered => exact absurd (h.1.symm.trans hready) nofun
    | moving => cases hmoved
    | scanning | collecting => exact h.2
  | done =>
    rw [hmessage] at h
    exact h.2

theorem GetInv.serve (h : GetInv id bytes c ready buf m) {stray : ℕ → UInt8} {version : UInt32}
    (hserve : m.serve stray (fun reply ↦ .answered reply.data) store = some (m', store'))
    (hstored : OnBlock store id (Settled bytes version))
    (hsmall : bytes.length < 2 ^ 64) :
    store' = store ∧ GetInv id bytes c ready buf m' := by
  rcases Message.serve_cases hserve with ⟨pack, rfl, rfl, rfl⟩ | ⟨key, next, rfl, rfl, rfl⟩ |
    ⟨key, value, next, rfl, rfl, rfl⟩ | ⟨reply, rfl, rfl, rfl⟩
  · obtain ⟨hready, hget⟩ := h
    refine ⟨rfl, hready, .inl ⟨stray, _, hget, ?_⟩⟩
    simp only [Ssbd.Access.handle, hget.type]
  · obtain ⟨hready, ⟨stray, pack, hget, hrest⟩ | ⟨reply, hrest, -⟩⟩ := h
    on_goal 2 => cases hrest
    obtain ⟨rfl, rfl⟩ := Program.get.inj hrest
    refine ⟨rfl, hready, .inr ⟨_, rfl, served_readReply hget hsmall ?_⟩⟩
    rw [asString_eq, hget.block, cell_block]
    exact (hstored .block).1
  · obtain ⟨-, ⟨stray, pack, -, hrest⟩ | ⟨reply, hrest, -⟩⟩ := h <;> cases hrest
  · obtain ⟨hready, ⟨stray, pack, -, hrest⟩ | ⟨reply, hrest, hlen, hserved⟩⟩ := h
    · cases hrest
    · obtain rfl := Program.done.inj hrest
      refine ⟨rfl, hready, ?_⟩
      rw [received_eq hlen]
      exact hserved

end Get

/-! ## The whole read

Each callback stores `ready`, moves its data, scans all places, and collects them if all are ready.
The last one to store `ready` finds all others ready when it scans; so if all are, one of the
callbacks is still looking or there is a reply. -/

namespace Message

/-- The callback of a get has stored `ready` and not yet found a place that is not, or replied. -/
def looking : Message ReadPhase → Bool
  | callback (.moving _) | callback (.scanning _) | callback (.collecting _ _) => true
  | callback (.answered _) | unsent | requested _ | running _ | done => false

private theorem serve_not_looking {stray : ℕ → UInt8} {store store' : Ssbd.Cell → Option Buf}
    {m m' : Message ReadPhase}
    (h : m.serve stray (fun reply ↦ .answered reply.data) store = some (m', store')) :
    m ≠ .unsent ∧ m.looking = false ∧ m'.looking = false := by
  rcases serve_cases h with ⟨_, rfl, rfl, -⟩ | ⟨_, _, rfl, rfl, -⟩ | ⟨_, _, _, rfl, rfl, -⟩ |
    ⟨_, rfl, rfl, -⟩
  · exact ⟨nofun, rfl, rfl⟩
  · exact ⟨nofun, rfl, rfl⟩
  · exact ⟨nofun, rfl, rfl⟩
  · exact ⟨nofun, rfl, rfl⟩

end Message

namespace ReadRun

variable (cfg : Config) (bytes : BlockId → Buf) (r : ReadRun)

/-- The buffer is put together from the data of the first `n` answers. -/
def Gathered (n : ℕ) (collect : Buf) : Prop :=
  ∃ bufs : List Buf, bufs.length = n ∧ bufs.flatten = collect ∧ ∀ (i : ℕ) c data,
    (r.chunks cfg)[i]? = some c → bufs[i]? = some data →
      Served (bytes (c.blockOf r.input.uuid)) c data

/-- The get of a piece has come to the given point, and its place is as given. -/
def GetAt (c : Chunk) (ready : Bool) (buf : Buf) (m : Message ReadPhase) : Prop :=
  GetInv (c.blockOf r.input.uuid) (bytes (c.blockOf r.input.uuid)) c ready buf m

end ReadRun

/-- A read at any moment, with what the blocks hold. -/
structure ReadInv (cfg : Config) (bytes : BlockId → Buf) (r : ReadRun) : Prop where
  get : ∀ i c, (r.chunks cfg)[i]? = some c → r.GetAt bytes c (r.ready i) (r.buf i) (r.message i)
  sent_le : r.sent ≤ (r.chunks cfg).length
  unsent : ∀ i, r.sent ≤ i → r.message i = .unsent
  scanning : ∀ i n, r.message i = .callback (.scanning n) → ∀ k < n, r.ready k = true
  collecting : ∀ i n collect, r.message i = .callback (.collecting n collect) →
    n ≤ (r.chunks cfg).length ∧ (∀ k < (r.chunks cfg).length, r.ready k = true) ∧
      r.Gathered cfg bytes n collect
  replies : ∀ reply ∈ r.replies, r.Gathered cfg bytes (r.chunks cfg).length reply
  /-- When all places are ready, somebody has replied or is about to find that out. -/
  last : r.chunks cfg ≠ [] → (∀ k < (r.chunks cfg).length, r.ready k = true) →
    (∃ i < (r.chunks cfg).length, (r.message i).looking = true) ∨ r.replies ≠ []
  empty : r.input.size = 0 → r.replies ≠ []

namespace ReadInv

variable {bytes : BlockId → Buf} {r r' : ReadRun}

theorem start (coordinator : ℕ) (input : ReadRequest) (salt : ℕ → Salt) :
    ReadInv cfg bytes (.start coordinator input salt) where
  get _ _ _ := rfl
  sent_le := Nat.zero_le _
  unsent _ _ := rfl
  scanning _ _ h := nomatch h
  collecting _ _ _ h := nomatch h
  replies reply hreply := by
    simp only [ReadRun.start] at hreply
    split at hreply
    · rename_i hzero
      obtain rfl := List.mem_singleton.mp hreply
      have hnil : (ReadRun.start coordinator input salt).chunks cfg = [] :=
        ReadRequest.chunks_of_size_zero hzero
      exact ⟨[], by rw [hnil]; rfl, rfl, fun i c data _ hdata ↦ nomatch hdata⟩
    · cases hreply
  last hne hready := by
    obtain ⟨c, hc⟩ := List.exists_mem_of_ne_nil _ hne
    have := hready 0 (List.length_pos_of_mem hc)
    cases this
  empty hzero := by
    have hsize : input.size = 0 := hzero
    simp only [ReadRun.start, if_pos hsize]
    exact List.cons_ne_nil _ _

private theorem isGet_arrived {c : Chunk} (hc : c ∈ r.chunks cfg) (i : ℕ) :
    IsGet (c.blockOf r.input.uuid) c (arrived (r.getPacket i c)) := by
  have hfits := r.input.fits hc
  have hread := readRequest_sent_of_get (p := r.getPacket i c) rfl []
  rw [List.append_nil] at hread
  rw [arrived_eq hread]
  refine ⟨rfl, rfl, ?_, ?_⟩
  · exact (UInt16.toNat_ofNat' ..).trans (Nat.mod_eq_of_lt hfits.offset_lt)
  · have := hfits.length_le
    exact (UInt32.toNat_ofNat' ..).trans (Nat.mod_eq_of_lt (by omega))

theorem sendGet (h : ReadInv cfg bytes r) (hsend : r.sendGet cfg = some r') :
    ReadInv cfg bytes r' := by
  rw [ReadRun.sendGet] at hsend
  split at hsend
  · cases hsend
  rename_i c hc
  cases hsend
  have hlt := (List.getElem?_eq_some_iff.mp hc).1
  have hothers : ∀ i, i ≠ r.sent → Function.update r.message r.sent
      (.requested (r.getPacket r.sent c)) i = r.message i := fun i hi ↦ Function.update_of_ne hi ..
  have hold : ∀ i phase, Function.update r.message r.sent
      (.requested (r.getPacket r.sent c)) i = .callback phase → r.message i = .callback phase := by
    intro i phase hi
    by_cases hsent : i = r.sent
    · rw [hsent, Function.update_self] at hi
      cases hi
    · rwa [hothers i hsent] at hi
  refine ⟨fun i d hd ↦ ?_, hlt, fun i hi ↦ ?_, fun i n hi ↦ h.scanning i n (hold i _ hi),
    fun i n collect hi ↦ h.collecting i n collect (hold i _ hi), h.replies, fun hne hready ↦ ?_,
    h.empty⟩
  · by_cases hi : i = r.sent
    · subst hi
      change (r.chunks cfg)[r.sent]? = some d at hd
      rw [hc, Option.some_inj] at hd
      subst hd
      have hget := h.get _ c hc
      rw [h.unsent _ le_rfl] at hget
      dsimp only
      rw [Function.update_self]
      exact ⟨hget, isGet_arrived (List.mem_of_getElem? hc) _⟩
    · dsimp only
      rw [hothers i hi]
      exact h.get i d hd
  · change r.sent + 1 ≤ i at hi
    exact (hothers i (by omega)).trans (h.unsent i (by omega))
  · refine (h.last hne hready).imp_left fun ⟨i, hi, hlooking⟩ ↦ ⟨i, hi, ?_⟩
    have hne : i ≠ r.sent := by
      rintro rfl
      rw [h.unsent _ le_rfl] at hlooking
      cases hlooking
    dsimp only
    rw [hothers i hne]
    exact hlooking

/-! ### A step of one get -/

section Get

variable {i : ℕ} {m : Message ReadPhase}

theorem serveGet (h : ReadInv cfg bytes r) {c : Chunk} (hc : (r.chunks cfg)[i]? = some c)
    {stray : ℕ → UInt8} {store σ : Ssbd.Cell → Option Buf} {version : UInt32}
    (hserve : (r.message i).serve stray (fun reply ↦ .answered reply.data) store = some (m, σ))
    (hstored : OnBlock store (c.blockOf r.input.uuid)
      (Settled (bytes (c.blockOf r.input.uuid)) version))
    (hsmall : (bytes (c.blockOf r.input.uuid)).length < 2 ^ 64) :
    σ = store ∧ ReadInv cfg bytes { r with message := Function.update r.message i m } := by
  obtain ⟨rfl, hget⟩ := (h.get i c hc).serve hserve hstored hsmall
  obtain ⟨hsent, hbefore, hafter⟩ := Message.serve_not_looking hserve
  have hlt : i < r.sent := by
    by_contra hle
    exact hsent (h.unsent i (by omega))
  have hold : ∀ k phase, (Message.callback phase).looking = true →
      Function.update r.message i m k = .callback phase → r.message k = .callback phase := by
    intro k phase hlooking hk
    by_cases hki : k = i
    · rw [hki, Function.update_self] at hk
      rw [hk, hlooking] at hafter
      cases hafter
    · rwa [Function.update_of_ne hki] at hk
  refine ⟨rfl, fun k d hd ↦ ?_, h.sent_le, fun k hk ↦ ?_,
    fun k n hk ↦ h.scanning k n (hold k _ rfl hk),
    fun k n collect hk ↦ h.collecting k n collect (hold k _ rfl hk), h.replies,
    fun hne hready ↦ ?_, h.empty⟩
  · by_cases hki : k = i
    · subst hki
      change (r.chunks cfg)[k]? = some d at hd
      rw [hc, Option.some_inj] at hd
      subst hd
      dsimp only
      rw [Function.update_self]
      exact hget
    · dsimp only
      rw [Function.update_of_ne hki]
      exact h.get k d hd
  · change r.sent ≤ k at hk
    dsimp only
    rw [Function.update_of_ne (by omega)]
    exact h.unsent k hk
  · refine (h.last hne hready).imp_left fun ⟨k, hk, hlooking⟩ ↦ ⟨k, hk, ?_⟩
    have hne : k ≠ i := by
      rintro rfl
      rw [hbefore] at hlooking
      cases hlooking
    dsimp only
    rw [Function.update_of_ne hne]
    exact hlooking

private theorem callback_update (h : ReadInv cfg bytes r) {phase : ReadPhase}
    (hi : r.message i = .callback phase)
    {ready : ℕ → Bool} {buf : ℕ → Buf} {replies : List Buf}
    (hready : ∀ k, r.ready k = true → ready k = true) (hready_ne : ∀ k, k ≠ i → ready k = r.ready k)
    (hbuf_ne : ∀ k, k ≠ i → buf k = r.buf k)
    (hget : ∀ c, (r.chunks cfg)[i]? = some c → r.GetAt bytes c (ready i) (buf i) m)
    (hscanning : ∀ n, m = .callback (.scanning n) → ∀ k < n, ready k = true)
    (hcollecting : ∀ n collect, m = .callback (.collecting n collect) →
      n ≤ (r.chunks cfg).length ∧ (∀ k < (r.chunks cfg).length, ready k = true) ∧
        r.Gathered cfg bytes n collect)
    (hreplies : ∀ reply ∈ replies, r.Gathered cfg bytes (r.chunks cfg).length reply)
    (hkeep : r.replies ≠ [] → replies ≠ [])
    (hlast : (∀ k < (r.chunks cfg).length, ready k = true) → m.looking = true ∨ replies ≠ []) :
    ReadInv cfg bytes
      { r with ready, buf, replies, message := Function.update r.message i m } := by
  have hlt : i < r.sent := by
    by_contra hle
    have hunsent := h.unsent i (by omega)
    rw [hi] at hunsent
    cases hunsent
  refine ⟨fun k c hc ↦ ?_, h.sent_le, fun k hk ↦ ?_, fun k n hk ↦ ?_, fun k n collect hk ↦ ?_,
    hreplies, fun _ hall ↦ ?_, fun hzero ↦ hkeep (h.empty hzero)⟩
  · by_cases hki : k = i
    · subst hki
      dsimp only
      rw [Function.update_self]
      exact hget c hc
    · dsimp only
      rw [Function.update_of_ne hki, hready_ne k hki, hbuf_ne k hki]
      exact h.get k c hc
  · change r.sent ≤ k at hk
    dsimp only
    rw [Function.update_of_ne (by omega)]
    exact h.unsent k hk
  · by_cases hki : k = i
    · rw [hki] at hk
      dsimp only at hk
      rw [Function.update_self] at hk
      exact hscanning n hk
    · dsimp only at hk
      rw [Function.update_of_ne hki] at hk
      exact fun x hx ↦ hready x (h.scanning k n hk x hx)
  · by_cases hki : k = i
    · rw [hki] at hk
      dsimp only at hk
      rw [Function.update_self] at hk
      exact hcollecting n collect hk
    · dsimp only at hk
      rw [Function.update_of_ne hki] at hk
      obtain ⟨hle, hall, hgathered⟩ := h.collecting k n collect hk
      exact ⟨hle, fun x hx ↦ hready x (hall x hx), hgathered⟩
  · refine (hlast hall).imp_left fun hlooking ↦ ⟨i, hlt.trans_le h.sent_le, ?_⟩
    dsimp only
    rw [Function.update_self]
    exact hlooking

private theorem ready_of_callback (h : ReadInv cfg bytes r) {c : Chunk}
    (hc : (r.chunks cfg)[i]? = some c) {phase : ReadPhase}
    (hi : r.message i = .callback phase) (hphase : (Message.callback phase).looking = true)
    (hmoved : ∀ data, phase ≠ .moving data) :
    r.ready i = true ∧ Served (bytes (c.blockOf r.input.uuid)) c (r.buf i) := by
  have hget := h.get i c hc
  rw [hi] at hget
  cases phase with
  | answered data => cases hphase
  | moving data => exact absurd rfl (hmoved data)
  | scanning n | collecting n collect => exact hget

private theorem storeReady (h : ReadInv cfg bytes r) {data : Buf}
    (hi : r.message i = .callback (.answered data)) :
    ReadInv cfg bytes { r with
      ready := Function.update r.ready i true
      message := Function.update r.message i (.callback (.moving data)) } := by
  refine h.callback_update hi (fun k hk ↦ ?_) (fun k hk ↦ Function.update_of_ne hk ..)
    (fun _ _ ↦ rfl) (fun c hc ↦ ?_) (fun _ h ↦ nomatch h) (fun _ _ h ↦ nomatch h) h.replies id
    fun _ ↦ .inl rfl
  · by_cases hki : k = i
    · rw [hki, Function.update_self]
    · rwa [Function.update_of_ne hki]
  · have hget := h.get i c hc
    rw [hi] at hget
    exact ⟨Function.update_self .., hget.2⟩

private theorem moveIn (h : ReadInv cfg bytes r) {data : Buf}
    (hi : r.message i = .callback (.moving data)) :
    ReadInv cfg bytes { r with
      buf := Function.update r.buf i data
      message := Function.update r.message i (.callback (.scanning 0)) } := by
  refine h.callback_update hi (fun _ ↦ id) (fun _ _ ↦ rfl)
    (fun k hk ↦ Function.update_of_ne hk ..) (fun c hc ↦ ?_) (fun n hn ↦ ?_)
    (fun _ _ h ↦ nomatch h) h.replies id fun _ ↦ .inl rfl
  · have hget := h.get i c hc
    rw [hi] at hget
    exact ⟨hget.1, by rw [Function.update_self]; exact hget.2⟩
  · cases hn
    exact fun _ h ↦ absurd h (Nat.not_lt_zero _)

private theorem scan (h : ReadInv cfg bytes r) {n : ℕ}
    (hi : r.message i = .callback (.scanning n)) :
    ReadInv cfg bytes { r with
      message := Function.update r.message i
        (if n < (r.chunks cfg).length then
          if r.ready n = true then .callback (.scanning (n + 1)) else .done
        else .callback (.collecting 0 [])) } := by
  have hget := fun c (hc : (r.chunks cfg)[i]? = some c) ↦ h.ready_of_callback hc hi rfl nofun
  split
  · rename_i hlt
    split
    · rename_i hready
      refine h.callback_update hi (fun _ ↦ id) (fun _ _ ↦ rfl) (fun _ _ ↦ rfl) hget
        (fun n' hn' k hk ↦ ?_) (fun _ _ h ↦ nomatch h) h.replies id fun _ ↦ .inl rfl
      cases hn'
      rcases Nat.lt_succ_iff_lt_or_eq.mp hk with hk | rfl
      · exact h.scanning i n hi k hk
      · exact hready
    · rename_i hready
      exact h.callback_update hi (fun _ ↦ id) (fun _ _ ↦ rfl) (fun _ _ ↦ rfl) hget
        (fun _ h ↦ nomatch h) (fun _ _ h ↦ nomatch h) h.replies id
        fun hall ↦ absurd (hall n hlt) hready
  · rename_i hle
    refine h.callback_update hi (fun _ ↦ id) (fun _ _ ↦ rfl) (fun _ _ ↦ rfl) hget
      (fun _ h ↦ nomatch h) (fun n' collect hn' ↦ ?_) h.replies id fun _ ↦ .inl rfl
    cases hn'
    exact ⟨Nat.zero_le _, fun k hk ↦ h.scanning i n hi k (by omega),
      [], rfl, rfl, fun k c data _ hdata ↦ nomatch hdata⟩

/-- One more place is collected, and its data is there. -/
private theorem gathered_succ (h : ReadInv cfg bytes r) {n : ℕ} {collect : Buf}
    (hgathered : r.Gathered cfg bytes n collect) (hready : r.ready n = true)
    (hmoved : r.isMoving n = false) : r.Gathered cfg bytes (n + 1) (collect ++ r.buf n) := by
  obtain ⟨bufs, hlen, hflatten, hserved⟩ := hgathered
  refine ⟨bufs ++ [r.buf n], by rw [List.length_append, hlen]; rfl,
    by rw [List.flatten_append, hflatten]; simp, fun k c data hc hdata ↦ ?_⟩
  rcases Nat.lt_or_ge k n with hk | hk
  · rw [List.getElem?_append_left (by omega)] at hdata
    exact hserved k c data hc hdata
  · have hkn : k = n := by
      have := (List.getElem?_eq_some_iff.mp hdata).1
      rw [List.length_append, List.length_singleton] at this
      omega
    subst hkn
    rw [List.getElem?_append_right (by omega), hlen, Nat.sub_self, List.getElem?_cons_zero,
      Option.some_inj] at hdata
    rw [← hdata]
    exact (h.get k c hc).served hready hmoved

/-- A step of the callback of a get that does not collect a place before its data is there. -/
theorem onBlock (h : ReadInv cfg bytes r) (hon : r.onBlock cfg i = some r')
    (hmoved : ∀ n ∈ r.collecting i, r.isMoving n = false) : ReadInv cfg bytes r' := by
  rw [ReadRun.onBlock] at hon
  split at hon
  · rename_i data hi
    cases hon
    exact h.storeReady hi
  · rename_i data hi
    cases hon
    exact h.moveIn hi
  · rename_i n hi
    cases hon
    exact h.scan hi
  · rename_i n collect hi
    obtain ⟨hle, hready, hgathered⟩ := h.collecting i n collect hi
    have hget := fun c (hc : (r.chunks cfg)[i]? = some c) ↦ h.ready_of_callback hc hi rfl nofun
    split at hon
    · rename_i hlt
      cases hon
      refine h.callback_update hi (fun _ ↦ id) (fun _ _ ↦ rfl) (fun _ _ ↦ rfl) hget
        (fun _ h ↦ nomatch h) (fun n' collect' hn' ↦ ?_) h.replies id fun _ ↦ .inl rfl
      cases hn'
      exact ⟨hlt, hready, h.gathered_succ hgathered (hready n hlt)
        (hmoved n (by rw [ReadRun.collecting, hi]; rfl))⟩
    · rename_i hge
      cases hon
      refine h.callback_update hi (fun _ ↦ id) (fun _ _ ↦ rfl) (fun _ _ ↦ rfl) hget
        (fun _ h ↦ nomatch h) (fun _ _ h ↦ nomatch h) (fun reply hreply ↦ ?_) (fun _ ↦ by simp)
        fun _ ↦ .inr (by simp)
      rcases List.mem_append.mp hreply with hmem | hmem
      · exact h.replies reply hmem
      · rw [List.mem_singleton.mp hmem, show (r.chunks cfg).length = n by omega]
        exact hgathered
  · cases hon

end Get

/-! ### The end

When all callbacks are done one of them has found all places ready, and so there is a reply. -/

theorem replies_ne_nil (h : ReadInv cfg bytes r) (hdone : r.Complete cfg)
    (hend : r.input.position.toNat + r.input.size.toNat < 2 ^ 32) : r.replies ≠ [] := by
  by_cases hsize : r.input.size.toNat = 0
  · exact h.empty (UInt32.toNat_inj.mp hsize)
  · obtain ⟨i₀, c₀, hc₀, -⟩ := r.input.exists_chunk cfg hend le_rfl (by omega)
    have hmessage : ∀ i < (r.chunks cfg).length, r.message i = .done := fun i hi ↦
      Message.isDone_iff.mp (hdone.2 i hi)
    refine (h.last (List.ne_nil_of_mem (List.mem_of_getElem? hc₀)) fun i hi ↦ ?_).resolve_left ?_
    · have hget := h.get i _ (List.getElem?_eq_getElem hi)
      rw [hmessage i hi] at hget
      exact hget.1
    · rintro ⟨i, hi, hlooking⟩
      rw [hmessage i hi] at hlooking
      cases hlooking

/-- **The replies of a read** have the size of the range, and the bytes of the blocks, if these are
long enough. -/
theorem reply_spec (h : ReadInv cfg bytes r) {reply : Buf} (hreply : reply ∈ r.replies)
    (hend : r.input.position.toNat + r.input.size.toNat < 2 ^ 32)
    (hbytes : ∀ x, r.input.position.toNat ≤ x →
      x < r.input.position.toNat + r.input.size.toNat →
        x % cfg.blocksize < (bytes (r.input.uuid, UInt32.ofNat (x / cfg.blocksize))).length) :
    reply.length = r.input.size.toNat ∧ ∀ x, r.input.position.toNat ≤ x →
      x < r.input.position.toNat + r.input.size.toNat →
        reply[x - r.input.position.toNat]?
          = (bytes (r.input.uuid, UInt32.ofNat (x / cfg.blocksize)))[x % cfg.blocksize]? := by
  obtain ⟨bufs, hlen, rfl, hserved⟩ := h.replies reply hreply
  have hadd := toNat_endpos hend
  -- every piece has a first position, so its block has bytes
  have hdata : ∀ (i : ℕ) c data, (r.chunks cfg)[i]? = some c → bufs[i]? = some data →
      data.length = c.length ∧ ∀ k < c.length,
        c.offset + k < (bytes (c.blockOf r.input.uuid)).length →
          data[k]? = (bytes (c.blockOf r.input.uuid))[c.offset + k]? := by
    intro i c data hc hi
    obtain ⟨hpos, hin, hplace, hle⟩ := (r.input.fits (List.mem_of_getElem? hc)).within
    obtain ⟨hdiv, hmod⟩ := Nat.div_mod_unique cfg.blocksize_pos |>.mpr
      ⟨rfl.trans (Nat.add_comm c.offset (cfg.blocksize * c.blockid)),
        (by omega : c.offset < cfg.blocksize)⟩
    rw [Nat.mul_comm, hplace] at hdiv hmod
    have hinside := hbytes (r.input.position.toNat + c.bufferOffset) (by omega) (by omega)
    rw [hdiv, hmod] at hinside
    exact hserved i c data hc hi (List.ne_nil_of_length_pos (by
      rw [Chunk.blockOf]
      omega))
  have hpieces : List.Forall₂ (fun c buf ↦ List.length buf = Chunk.length c) (r.chunks cfg)
      bufs := by
    rw [List.forall₂_iff_get]
    refine ⟨hlen.symm, fun i hi hi' ↦ ?_⟩
    exact (hdata i _ _ (List.getElem?_eq_getElem hi) (List.getElem?_eq_getElem hi')).1
  obtain ⟨hlength, hget⟩ := flatten_pieces cfg.blocksize_pos _ hpieces
  refine ⟨by rw [hlength, hadd]; omega, fun x hlo hhi ↦ ?_⟩
  obtain ⟨i, c, hc, hid, hoff, hlt⟩ := r.input.exists_chunk cfg hend hlo hhi
  have hi : i < bufs.length := by
    rw [hlen]
    exact (List.getElem?_eq_some_iff.mp hc).1
  obtain ⟨-, hbody⟩ := hdata i c _ hc (List.getElem?_eq_getElem hi)
  have hplace := (r.input.fits (List.mem_of_getElem? hc)).within.place
  have hdiv := Nat.div_add_mod' x cfg.blocksize
  have hsplit : c.offset + (x % cfg.blocksize - c.offset) = x % cfg.blocksize := by omega
  have hinside := hbytes x hlo hhi
  rw [hid] at hplace
  rw [Chunk.blockOf, hid] at hbody
  have hbyte := hbody (x % cfg.blocksize - c.offset) (by omega) (by rwa [hsplit])
  rw [hsplit] at hbyte
  rw [← hbyte, ← hget i c _ (x % cfg.blocksize - c.offset) hc (List.getElem?_eq_getElem hi)
    (by omega)]
  congr 1
  omega

end ReadInv

end Slsfs.Datafunction.Threaded
