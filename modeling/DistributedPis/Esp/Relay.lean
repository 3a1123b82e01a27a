import DistributedPis.Esp.Collect

/-! Relaying a message to the TCP client. `send_msg` reads byte `k` of packet `i` at index
`k+(i*k)` of the packet buffer; the byte stands at index `32*i+k`. -/
namespace DistributedPis
namespace Esp

/-- Byte `j` of consecutive packets. -/
def pcktByte (ds : List Packet) (j : ℕ) : UInt8 :=
  (ds[j/32]?.getD (fun _ => 0)) ⟨j % 32, Packet.mod32_lt j⟩

lemma bytes_eq_range (p : Packet) :
    p.bytes = (List.range 32).map (fun k => p ⟨k % 32, Nat.mod_lt _ (by decide)⟩) := by
  apply List.ext_getElem
  · simp
  · intro k hk _
    have h : k < 32 := by simpa using hk
    simp [Packet.bytes, Nat.mod_eq_of_lt h, -List.ofFn_succ]

theorem wire_eq_range (ds : List Packet) :
    wire ds = (List.range ds.length).flatMap
      (fun i => (List.range 32).map (fun k => pcktByte ds (32*i+k))) := by
  have hrow : ∀ i ∈ List.range ds.length,
      (List.range 32).map (fun k => pcktByte ds (32*i+k)) =
        (ds[i]?.getD (fun _ => 0)).bytes := by
    intro i _
    rw [bytes_eq_range]
    apply List.map_congr_left
    intro k hk
    have hk := List.mem_range.mp hk
    simp only [pcktByte, show (32*i+k)/32 = i by omega, show (32*i+k) % 32 = k % 32 by omega]
  have hds : ds = (List.range ds.length).map (fun i => ds[i]?.getD (fun _ => 0)) := by
    apply List.ext_getElem
    · simp
    · intro i hi _; simp [hi]
  rw [List.flatMap_congr hrow]
  conv_lhs => rw [wire, hds]
  rw [List.flatMap_map]

/-- Two tables of bytes agree as one sequence exactly when they agree entry by entry. -/
theorem rows_inj (f g : ℕ → ℕ → UInt8) (n : ℕ) :
    ((List.range n).flatMap (fun i => (List.range 32).map (f i)) =
      (List.range n).flatMap (fun i => (List.range 32).map (g i))) ↔
      ∀ i < n, ∀ k < 32, f i k = g i k := by
  have hlen : ∀ (h : ℕ → ℕ → UInt8) (n : ℕ),
      ((List.range n).flatMap (fun i => (List.range 32).map (h i))).length = 32*n := by
    intro h n
    simp [List.length_flatMap, Nat.mul_comm]
  induction n with
  | zero => simp
  | succ n ih =>
    simp only [List.range_succ (n := n), List.flatMap_append, List.flatMap_cons,
      List.flatMap_nil, List.append_nil]
    constructor
    · intro h i hi k hk
      obtain ⟨hinit,hlast⟩ := List.append_inj' h (by simp)
      rcases Nat.lt_or_eq_of_le (Nat.le_of_lt_succ hi) with hi | rfl
      · exact ih.mp hinit i hi k hk
      · exact List.map_inj_left.mp hlast k (List.mem_range.mpr hk)
    · intro h
      rw [ih.mpr (fun i hi => h i (by omega)),
        List.map_congr_left (fun k hk => h n (by omega) k (List.mem_range.mp hk))]

lemma index_lt (j : ℕ) (h : 32 ≤ j) : (j/32+1)*(j % 32) < j := by
  have hm : j/32*(j % 32) < j/32*32 := Nat.mul_lt_mul_of_pos_left (by omega) (by omega)
  rw [Nat.add_mul]
  omega

/-- The byte of the first data packet that ends up at index `j` when every byte is fetched
from index `(j/32+1)*(j%32)`. -/
def root (j : ℕ) : ℕ := if j < 32 then j else root ((j/32+1)*(j % 32))
decreasing_by exact index_lt j (by omega)

theorem root_of_lt {j : ℕ} (h : j < 32) : root j = j := by rw [root, if_pos h]

theorem root_of_ge {j : ℕ} (h : 32 ≤ j) : root j = root ((j/32+1)*(j % 32)) := by
  rw [root, if_neg (by omega)]

/-- The computed index fetches the right byte everywhere exactly when all bytes repeat the
first packet along `root`. -/
theorem copies_iff (B : ℕ → UInt8) (n : ℕ) :
    (∀ i < n, ∀ k < 32, B (k+i*k) = B (32*i+k)) ↔ ∀ j < 32*n, B j = B (root j) := by
  have hidx : ∀ i k, k+i*k = (i+1)*k := fun i k => by rw [Nat.add_mul]; omega
  constructor
  · intro h j hj
    induction j using Nat.strongRecOn with
    | ind j ih =>
      by_cases hlt : j < 32
      · rw [root_of_lt hlt]
      · have hfetch := index_lt j (by omega)
        have hstep := h (j/32) (by omega) (j % 32) (Nat.mod_lt _ (by decide))
        rw [hidx, Nat.div_add_mod] at hstep
        rw [root_of_ge (by omega), ← hstep]
        exact ih _ hfetch (by omega)
  · intro h i hi k hk
    rw [hidx]
    rcases Nat.eq_zero_or_pos i with rfl | hpos
    · simp
    · have hdiv : (32*i+k)/32 = i := by omega
      have hmod : (32*i+k) % 32 = k := by omega
      have hfetch := index_lt (32*i+k) (by omega)
      rw [hdiv, hmod] at hfetch
      rw [h _ (by omega), h (32*i+k) (by omega), root_of_ge (j := 32*i+k) (by omega), hdiv, hmod]

section Messages
variable (toId fromId : UInt8) (payload : List UInt8)

/-- Byte `j` of the data packets when all of them are full. -/
def fullByte (j : ℕ) : UInt8 :=
  if j % 32 = 0 then headerLow 30 false
  else if j % 32 = 1 then headerHigh toId fromId
  else payload.getD (30*(j/32) + (j % 32 - 2)) 0

/-- At most one data packet; or only full packets, at most as many as a 32 bit block size can
hold, in which every byte repeats the byte of the first packet at index `root j`. -/
def RelayedIntact : Prop :=
  payload.length ≤ 30 ∨ (30 ∣ payload.length ∧ payload.length < 30*2^27 ∧
    ∀ j < 32*(payload.length/30), fullByte toId fromId payload j =
      fullByte toId fromId payload (root j))

theorem pcktByte_eq_fullByte (hfull : 30 ∣ payload.length) (j : ℕ)
    (hj : j < 32*(payload.length/30)) :
    pcktByte (dataPckts toId fromId payload) j = fullByte toId fromId payload j := by
  have hi : j/32 < (dataPckts toId fromId payload).length := by
    simp only [dataPckts_length, npckts, Library.pieces, dataNbytes]
    omega
  have hlen : (Library.chunk 30 payload (j/32)).length = 30 := by
    rw [Library.chunk_length]
    omega
  rw [pcktByte, List.getElem?_eq_getElem hi, Option.getD_some, getElem_dataPckts, hlen, espPckt,
    Packet.ofBytes, fullByte]
  dsimp only
  have hk : j % 32 < 32 := Nat.mod_lt _ (by decide)
  generalize j % 32 = k at hk ⊢
  rcases k with _ | _ | k
  · simp
  · simp
  · simp only [List.getD_eq_getElem?_getD, List.getElem?_cons_succ, Library.chunk,
      List.getElem?_take, List.getElem?_drop]
    simp [show k < 30 by omega]

lemma root_lt (j : ℕ) : root j < 32 := by
  induction j using Nat.strongRecOn with
  | ind j ih =>
    by_cases h : j < 32
    · rwa [root_of_lt h]
    · rw [root_of_ge (by omega)]
      exact ih _ (index_lt j (by omega))

/-- With two or more data packets, equal bytes force all packets to be full: the header byte of
every packet is fetched from the first one. -/
lemma full_of_copies (hn : 30 < payload.length)
    (h : ∀ i < npckts payload.length, ∀ k < 32,
      pcktByte (dataPckts toId fromId payload) (k+i*k) =
        pcktByte (dataPckts toId fromId payload) (32*i+k)) : 30 ∣ payload.length := by
  have hhead : ∀ i < npckts payload.length,
      (pcktByte (dataPckts toId fromId payload) (32*i)).toNat =
        4*(min 30 (payload.length - 30*i)) := by
    intro i hi
    have hi' : (32*i)/32 < (dataPckts toId fromId payload).length := by
      rw [dataPckts_length]; omega
    rw [pcktByte, List.getElem?_eq_getElem hi', Option.getD_some, getElem_dataPckts]
    simp only [espPckt, Packet.ofBytes, Nat.mul_mod_right, List.getD_cons_zero, headerLow_toNat,
      Library.chunk_length, Nat.mul_div_cancel_left i (show 0 < 32 by decide),
      Bool.false_eq_true, if_false]
    omega
  have hlt := (Library.lt_pieces 30 payload.length ((payload.length-1)/30) (by decide)).mpr
    (by omega)
  have hpos : 0 < npckts payload.length := Library.pieces_pos 30 _ (by decide) (by omega)
  have he := h ((payload.length-1)/30) hlt 0 (by decide)
  have h₀ := hhead 0 hpos
  have h₁ := hhead ((payload.length-1)/30) hlt
  simp only [Nat.mul_zero, Nat.add_zero] at he h₀
  rw [← he, h₀] at h₁
  omega

theorem copies_iff_intact (hfit : payload.length < 30*2^27) :
    (∀ i < npckts payload.length, ∀ k < 32,
      pcktByte (dataPckts toId fromId payload) (k+i*k) =
        pcktByte (dataPckts toId fromId payload) (32*i+k)) ↔
      RelayedIntact toId fromId payload := by
  by_cases hn : payload.length ≤ 30
  · have hle : npckts payload.length ≤ 1 := by
      by_contra hc
      have := (Library.lt_pieces 30 payload.length 1 (by decide)).mp (Nat.lt_of_not_le hc)
      omega
    refine ⟨fun _ => Or.inl hn, fun _ i hi k _ => ?_⟩
    obtain rfl : i = 0 := by omega
    simp
  · have hfullIff : ∀ hfull : 30 ∣ payload.length,
        (∀ j < 32*(payload.length/30), pcktByte (dataPckts toId fromId payload) j =
          pcktByte (dataPckts toId fromId payload) (root j)) ↔
        ∀ j < 32*(payload.length/30), fullByte toId fromId payload j =
          fullByte toId fromId payload (root j) := by
      intro hfull
      refine forall₂_congr (fun j hj => ?_)
      have hr := root_lt j
      rw [pcktByte_eq_fullByte toId fromId payload hfull j hj,
        pcktByte_eq_fullByte toId fromId payload hfull (root j) (by omega)]
    have hcount : 30 ∣ payload.length → npckts payload.length = payload.length/30 := by
      intro hfull
      simp [npckts, Library.pieces, dataNbytes, Nat.mod_eq_zero_of_dvd hfull]
    constructor
    · intro h
      have hfull := full_of_copies toId fromId payload (by omega) h
      rw [hcount hfull, copies_iff, hfullIff hfull] at h
      exact Or.inr ⟨hfull, hfit, h⟩
    · rintro (h | ⟨hfull,_,h⟩)
      · omega
      · rwa [hcount hfull, copies_iff, hfullIff hfull]

end Messages

/-- Parse the packets of a message in order, then run its command. -/
def relay (server : Bool) (env : Env) (during : List UInt8) (ps : List Packet) (s : Esp) :
    Option Esp := (parseAll env.malloc ps s).bind (runCmnd server env during)

/-- The sketch is between messages, `malloc` succeeds and connection `c`, the one for `toId`,
is up. -/
structure Ready (server : Bool) (env : Env) (s : Esp) (toId : UInt8) (c : ℕ) : Prop where
  idle : ∃ q, s.fromPi = idleBuff q
  malloc : env.malloc.isSome = true
  client : s.connected s.client = true
  target : (if server then s.wifiArr (toId.toNat % 16) else s.client) = some c
  live : (s.conns c).connected = true

/-- What `send_msg` writes to connection `c` is what the Pi sent. -/
def Transparent (server : Bool) (env : Env) (during : List UInt8) (s : Esp) (c : ℕ)
    (ps : List Packet) : Prop :=
  ∃ t, relay server env during ps s = some t ∧
    (t.conns c).written = (s.conns c).written ++ wire ps

section Runs
variable {server : Bool} {env : Env} {during : List UInt8} {s : Esp} {c : ℕ}
variable {heap : ℕ → UInt8} {toId fromId : UInt8} {payload : List UInt8}

/-- With both clients up, a complete `espSendData` message is written to its target. -/
lemma runCmnd_written (hcmnd : s.fromPi.cmnd = espSendData)
    (hclient : s.connected s.client = true)
    (htarget : (if server then s.wifiArr s.fromPi.cmndPckt.espTo else s.client) = some c)
    (hlive : (s.conns c).connected = true) :
    ∃ t, runCmnd server env during s = some t ∧
      (t.conns c).written = (s.conns c).written ++ msgBytes s.fromPi := by
  have hsend : s.sendMsg server env =
      some ({s with client := some c}.writeClient (some c) (msgBytes s.fromPi)) := by
    simp only [sendMsg, hclient, if_true]
    change some _ = some _
    rw [htarget]
  have hexec : s.execute server env = s.sendMsg server env := by
    simp [execute, hcmnd, espSendData, espServerInit]
  refine ⟨_, by rw [runCmnd, hexec, hsend]; rfl, ?_⟩
  simp [clean, writeClient, hlive]

lemma relay_of_fits (hs : Ready server env s toId c) {hdr : Packet} {ds : List Packet}
    (hm : IsMessage hdr ds) (hcmnd : hdr.cmnd = espSendData)
    (hto : hdr.espTo = toId.toNat % 16) (hfit : 32*ds.length < 2^32) :
    ∃ t, relay server env during (hdr::ds) s = some t ∧
      (t.conns c).written = (s.conns c).written ++ (hdr.bytes ++
        (List.range ds.length).flatMap
          (fun i => (List.range 32).map (fun k => pcktByte ds (k+i*k)))) := by
  obtain ⟨q,hq⟩ := hs.idle
  obtain ⟨cells,hcells⟩ := Option.isSome_iff_exists.mp hs.malloc
  have hparse : parseAll env.malloc (hdr::ds) s =
      some {s with fromPi := collected (some cells) hdr ds ds.length} := by
    rw [parseAll, List.foldlM_cons, hcells, parsePacket_header hm hq]
    exact parseAll_data hm rfl hfit
  -- the buffer holds exactly the data packets
  have hbytes : msgBytes (collected (some cells) hdr ds ds.length) = hdr.bytes ++
      (List.range ds.length).flatMap
        (fun i => (List.range 32).map (fun k => pcktByte ds (k+i*k))) := by
    have hrow : ∀ i ∈ List.range ds.length, ∀ k ∈ List.range 32,
        byteAt (collected (some cells) hdr ds ds.length).buff (k+i*k) = pcktByte ds (k+i*k) := by
      intro i hi k hk
      have hi := List.mem_range.mp hi
      have hk := List.mem_range.mp hk
      have hik : i*k ≤ i*31 := Nat.mul_le_mul_left i (by omega)
      have hcell : (k+i*k)/32 < ds.length := by omega
      simp [collected, byteAt, storeAll_of_lt _ _ _ hcell, pcktByte, hcell]
    simp only [msgBytes, collected, checkFull_cmndPckt, checkFull_numPckts]
    congr 1
    exact List.flatMap_congr (fun i hi => List.map_congr_left (hrow i hi))
  obtain ⟨t,ht,hw⟩ : ∃ t, runCmnd server env during
      {s with fromPi := collected (some cells) hdr ds ds.length} = some t ∧ (t.conns c).written =
        (s.conns c).written ++ msgBytes (collected (some cells) hdr ds ds.length) :=
    runCmnd_written (by simpa [collected] using hcmnd) hs.client
      (by simpa [collected, hto] using hs.target) hs.live
  exact ⟨t, by rw [relay, hparse]; exact ht, by rw [hw, hbytes]⟩

/-- Transparency comes down to the computed index. -/
lemma transparent_iff_copies (hs : Ready server env s toId c) {hdr : Packet} {ds : List Packet}
    (hm : IsMessage hdr ds) (hcmnd : hdr.cmnd = espSendData)
    (hto : hdr.espTo = toId.toNat % 16) (hfit : 32*ds.length < 2^32) :
    Transparent server env during s c (hdr::ds) ↔
      ∀ i < ds.length, ∀ k < 32, pcktByte ds (k+i*k) = pcktByte ds (32*i+k) := by
  obtain ⟨t,ht,hw⟩ : ∃ t, relay server env during (hdr::ds) s = some t ∧ _ :=
    relay_of_fits hs hm hcmnd hto hfit
  rw [← rows_inj, ← wire_eq_range]
  constructor
  · rintro ⟨u,hu,huw⟩
    obtain rfl := Option.some.inj (ht.symm.trans hu)
    rw [hw, wire_cons] at huw
    exact List.append_cancel_left (List.append_cancel_left huw)
  · intro he
    exact ⟨t, ht, by rw [hw, he, wire_cons]⟩

/-- The sketch relays a message unchanged exactly when it has at most one data packet, or its
packets are copies of the first one along `root`. -/
theorem sendData_transparent_iff (hs : Ready server env s toId c) :
    (∃ ps, sendCmd heap espSendData toId fromId payload = some ps ∧
      Transparent server env during s c ps) ↔ RelayedIntact toId fromId payload := by
  by_cases hlen : payload.length ≤ maxPayload
  · have hfit := (npckts_lt_iff _).mpr hlen
    have hlt : payload.length < 30*2^27 := by unfold maxPayload at hlen; omega
    obtain ⟨hdr,ds,hsend,hm,rfl,hcmnd,hto⟩ :=
      cmdPckts_isMessage heap espSendData toId fromId payload (by decide) (by omega)
    rw [← dataPckts_length toId fromId] at hfit
    have hcopies : Transparent server env during s c (hdr::dataPckts toId fromId payload) ↔ _ :=
      transparent_iff_copies hs hm hcmnd hto hfit
    rw [sendCmd_eq, if_pos hlen, hsend, ← copies_iff_intact toId fromId payload hlt,
      ← dataPckts_length toId fromId payload, ← hcopies]
    simp
  · rw [sendCmd_eq, if_neg hlen]
    unfold maxPayload at hlen
    refine iff_of_false (by simp) ?_
    rintro (h | ⟨hfull,h,-⟩) <;> omega

end Runs

/-- One live connection that serves every id. -/
def oneClient : Esp :=
  {setup (fun _ => ⟨true, [], [], .unset⟩) with client := some 0, wifiArr := fun _ => some 0}

lemma oneClient_ready (server : Bool) (toId : UInt8) : Ready server plainEnv oneClient toId 0 := by
  refine ⟨⟨_,rfl⟩, rfl, rfl, ?_, rfl⟩
  cases server <;> rfl

theorem sendData_transparent_iff_three :
    (∃ ps, sendCmd (fun _ => 0) espSendData 1 2 [7,8,9] = some ps ∧
      Transparent true plainEnv [] oneClient 0 ps) ↔ RelayedIntact 1 2 [7,8,9] :=
  sendData_transparent_iff (oneClient_ready true 1)

/-- Two data packets: the header byte of the second one is overwritten by that of the first. -/
theorem sendData_garbled :
    ∃ ps, sendCmd (fun _ => 0) espSendData 1 2 (List.replicate 31 0) = some ps ∧
      ¬ Transparent true plainEnv [] oneClient 0 ps := by
  obtain ⟨hdr,ds,hsend,hm,rfl,hcmnd,hto⟩ := cmdPckts_isMessage (fun _ => 0) espSendData 1 2
    (List.replicate 31 0) (by decide) (by decide)
  refine ⟨_, (sendCmd_eq ..).trans (if_pos (by decide)), ?_⟩
  rw [hsend, transparent_iff_copies (oneClient_ready true 1) hm hcmnd hto
    (by rw [dataPckts_length]; decide), dataPckts_length]
  intro h
  have hfull := full_of_copies 1 2 (List.replicate 31 0) (by decide) h
  revert hfull
  decide

end Esp
end DistributedPis
