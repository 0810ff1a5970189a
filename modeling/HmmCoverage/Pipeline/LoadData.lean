import HmmCoverage.Support.Python
import Mathlib.Data.Nat.Digits

/-!
# Splitting a capture into sequences

`load_and_split_data_syn` and `load_and_split_data_ports` read a pcap with scapy and split
its packets into the sequences the HMMs are trained and scored on.  Reading the file is
`load_data`, an external call; here the loaders start from the list of packets it returns.
A packet is reduced to what the loaders read of it: its layers, the TCP flags, the IP source,
the TCP ports and its raw bytes.

The SYN loader cuts the capture before every SYN packet that follows another packet.  Its
invariant keeps the closed sequences and the open one (`SynSplitInv`); the final flush
closes the open one, and `SynCut` says what the result is for.

The port loader groups the sender's packets by their source port and the target's by their
destination port, keyed by `str(port)`.  It is characterised for every pair of addresses by
the `port` each packet gets (`packetPort`); this is the client port of the connection only
when the two addresses differ, because the sender is tested first.
-/

namespace HmmCoverage

/-- The parts of a captured packet the loaders read: whether it has an `IP` and a `TCP` layer,
`str(pkt[TCP].flags)`, `pkt[IP].src`, `pkt[TCP].sport`, `pkt[TCP].dport` and `raw(pkt)`. -/
structure Packet where
  hasIp : Bool
  hasTcp : Bool
  flags : String
  src : String
  sport : ℕ
  dport : ℕ
  raw : List UInt8
  deriving DecidableEq, Repr, Inhabited

/-- `IP in pkt and TCP in pkt and str(pkt[TCP].flags) == 'S'`. -/
def Packet.isSyn (pkt : Packet) : Bool :=
  pkt.hasIp && pkt.hasTcp && pkt.flags == "S"

/-! ## Splitting on SYN packets -/

/-- The loop variables of `load_and_split_data_syn`. -/
structure SynSplitState where
  packetsFilteredSplit : List (ℕ × List (List UInt8))
  currentSequence : List (List UInt8)
  sequenceNo : ℕ

/-- One pass of the loop: a SYN packet stores a non-empty current sequence under
`sequence_no` and starts a new one; then the packet is appended to the current sequence. -/
def synSplitStep (s : SynSplitState) (pkt : Packet) : SynSplitState :=
  let s : SynSplitState :=
    if pkt.isSyn then
      if s.currentSequence.length > 0 then
        ⟨dictSet s.packetsFilteredSplit s.sequenceNo s.currentSequence, [], s.sequenceNo + 1⟩
      else s
    else s
  ⟨s.packetsFilteredSplit, s.currentSequence ++ [pkt.raw], s.sequenceNo⟩

/-- `load_and_split_data_syn` on the packets `load_data` returned: the loop, then the last
sequence stored under the last `sequence_no`. -/
def loadAndSplitDataSyn (packetsFiltered : List Packet) : List (ℕ × List (List UInt8)) :=
  let s := packetsFiltered.foldl synSplitStep ⟨[], [], 0⟩
  dictSet s.packetsFilteredSplit s.sequenceNo s.currentSequence

theorem synSplitStep_of_flush {s : SynSplitState} {pkt : Packet} (hsyn : pkt.isSyn = true)
    (hcur : s.currentSequence ≠ []) :
    synSplitStep s pkt =
      ⟨dictSet s.packetsFilteredSplit s.sequenceNo s.currentSequence, [pkt.raw],
        s.sequenceNo + 1⟩ := by
  simp [synSplitStep, hsyn, List.length_pos.mpr hcur]

theorem synSplitStep_of_extend {s : SynSplitState} {pkt : Packet}
    (h : pkt.isSyn = false ∨ s.currentSequence = []) :
    synSplitStep s pkt =
      ⟨s.packetsFilteredSplit, s.currentSequence ++ [pkt.raw], s.sequenceNo⟩ := by
  rcases h with h | h <;> simp [synSplitStep, h]

/-- Storing the next sequence number appends it: the keys so far are `0, …, n - 1`. -/
theorem dictSet_zip_range {α : Type} {n : ℕ} {l : List α} (hl : l.length = n) (v : α) :
    dictSet ((List.range n).zip l) n v = (List.range (n + 1)).zip (l ++ [v]) := by
  have hkeys : ((List.range n).zip l).map Prod.fst = List.range n :=
    List.map_fst_zip _ _ (by simp [hl])
  rw [dictSet_of_not_mem (by simp [hkeys]), List.range_succ, List.zip_append (by simp [hl])]
  rfl

/-- `groups` cuts the packets `P`, in order, before each SYN packet that follows another
packet and nowhere else; a group is empty only when `P` is. -/
structure SynCut (P : List Packet) (groups : List (List Packet)) : Prop where
  flatten_eq : groups.flatten = P
  ne_nil : P ≠ [] → ∀ g ∈ groups, g ≠ []
  tail_not_syn : ∀ g ∈ groups, ∀ pkt ∈ g.tail, pkt.isSyn = false
  head_syn : ∀ g ∈ groups.tail, ∃ pkt, g.head? = some pkt ∧ pkt.isSyn = true

/-- The loop state after the packets `done`: the sequences stored so far are `closed`, under
the keys `0, …, closed.length - 1`, and `cur` is the open one. -/
structure SynSplitInv (done : List Packet) (s : SynSplitState) (closed : List (List Packet))
    (cur : List Packet) : Prop where
  split_eq : s.packetsFilteredSplit =
    (List.range closed.length).zip (closed.map (List.map Packet.raw))
  sequenceNo_eq : s.sequenceNo = closed.length
  currentSequence_eq : s.currentSequence = cur.map Packet.raw
  closed_ne_nil : ∀ g ∈ closed, g ≠ []
  cut : SynCut done (closed ++ [cur])

section SynStep

variable {done : List Packet} {s : SynSplitState} {closed : List (List Packet)}
  {cur : List Packet}

/-- A SYN packet after a non-empty open sequence closes it and opens `[pkt]`. -/
theorem SynSplitInv.flush (h : SynSplitInv done s closed cur) {pkt : Packet}
    (hsyn : pkt.isSyn = true) (hcur : cur ≠ []) :
    SynSplitInv (done ++ [pkt]) (synSplitStep s pkt) (closed ++ [cur]) [pkt] := by
  have hcut := h.cut
  rw [synSplitStep_of_flush hsyn (by simpa [h.currentSequence_eq] using hcur)]
  refine ⟨?_, by simp [h.sequenceNo_eq], rfl, ?_, ⟨by simp [← hcut.flatten_eq], fun _ => ?_, ?_, ?_⟩⟩
  · rw [h.split_eq, h.sequenceNo_eq, h.currentSequence_eq, dictSet_zip_range (by simp),
      List.length_append, List.length_singleton, List.map_append, List.map_singleton]
  · simp only [List.forall_mem_append, List.forall_mem_singleton]
    exact ⟨h.closed_ne_nil, hcur⟩
  · simp only [List.forall_mem_append, List.forall_mem_singleton]
    exact ⟨⟨h.closed_ne_nil, hcur⟩, List.cons_ne_nil _ _⟩
  · have hold := hcut.tail_not_syn
    simp only [List.forall_mem_append, List.forall_mem_singleton] at hold ⊢
    exact ⟨hold, fun p hp => absurd hp (List.not_mem_nil p)⟩
  · have hold := hcut.head_syn
    rw [List.tail_append_of_ne_nil (by simp)]
    simp only [List.forall_mem_append, List.forall_mem_singleton] at hold ⊢
    exact ⟨hold, pkt, rfl, hsyn⟩

/-- Any other packet is appended to the open sequence: it is not a SYN packet, or the open
sequence is empty. -/
theorem SynSplitInv.extend (h : SynSplitInv done s closed cur) {pkt : Packet}
    (hpkt : pkt.isSyn = false ∨ cur = []) :
    SynSplitInv (done ++ [pkt]) (synSplitStep s pkt) closed (cur ++ [pkt]) := by
  have hcut := h.cut
  rw [synSplitStep_of_extend (by simpa [h.currentSequence_eq] using hpkt)]
  refine ⟨h.split_eq, h.sequenceNo_eq, by simp [h.currentSequence_eq], h.closed_ne_nil,
    ⟨by simp [← hcut.flatten_eq], fun _ => ?_, ?_, ?_⟩⟩
  · simp only [List.forall_mem_append, List.forall_mem_singleton]
    exact ⟨h.closed_ne_nil, by simp⟩
  · have hold := hcut.tail_not_syn
    simp only [List.forall_mem_append, List.forall_mem_singleton] at hold ⊢
    refine ⟨hold.1, ?_⟩
    rcases cur with _ | ⟨c, cur⟩
    · simp
    · simp only [List.cons_append, List.tail_cons, List.forall_mem_append,
        List.forall_mem_singleton]
      exact ⟨hold.2, by simpa using hpkt⟩
  · rcases closed with _ | ⟨c, closed⟩
    · simp
    · have hold := hcut.head_syn
      simp only [List.cons_append, List.tail_cons, List.forall_mem_append,
        List.forall_mem_singleton] at hold ⊢
      obtain ⟨p, hp, hsyn⟩ := hold.2
      obtain ⟨c', cur, rfl⟩ := List.exists_cons_of_ne_nil (show cur ≠ [] by
        rintro rfl; simp at hp)
      exact ⟨hold.1, p, by simpa using hp, hsyn⟩

/-- One pass of the loop keeps the invariant. -/
theorem SynSplitInv.step (h : SynSplitInv done s closed cur) (pkt : Packet) :
    ∃ closed' cur', SynSplitInv (done ++ [pkt]) (synSplitStep s pkt) closed' cur' := by
  by_cases hflush : pkt.isSyn = true ∧ cur ≠ []
  · exact ⟨_, _, h.flush hflush.1 hflush.2⟩
  · refine ⟨_, _, h.extend ?_⟩
    rw [not_and_or, Bool.not_eq_true, not_not] at hflush
    exact hflush

end SynStep

/-- The whole loop keeps the invariant. -/
theorem SynSplitInv.foldl {done : List Packet} {s : SynSplitState} {closed : List (List Packet)}
    {cur : List Packet} (h : SynSplitInv done s closed cur) (rest : List Packet) :
    ∃ closed' cur', SynSplitInv (done ++ rest) (rest.foldl synSplitStep s) closed' cur' := by
  induction rest generalizing done s closed cur with
  | nil => exact ⟨closed, cur, by simpa using h⟩
  | cons pkt rest ih =>
    obtain ⟨closed', cur', h'⟩ := h.step pkt
    simpa using ih h'

theorem synSplitInv_initial : SynSplitInv [] ⟨[], [], 0⟩ [] [] :=
  ⟨rfl, rfl, rfl, by simp, ⟨rfl, by simp, by simp, by simp⟩⟩

/-- The loop and the final flush store the groups of a cut of the capture under
`0, …, k`. -/
theorem loadAndSplitDataSyn_eq_zip (P : List Packet) :
    ∃ groups : List (List Packet), SynCut P groups ∧ groups ≠ [] ∧
      loadAndSplitDataSyn P =
        (List.range groups.length).zip (groups.map (List.map Packet.raw)) := by
  obtain ⟨closed, cur, h⟩ := synSplitInv_initial.foldl P
  refine ⟨closed ++ [cur], by simpa using h.cut, by simp, ?_⟩
  rw [loadAndSplitDataSyn, h.split_eq, h.sequenceNo_eq, h.currentSequence_eq,
    dictSet_zip_range (by simp), List.length_append, List.length_singleton, List.map_append,
    List.map_singleton]

/-- For every capture `P`, `load_and_split_data_syn` returns the dictionary
`{i: [raw(p) for p in groups[i]]}` of a cut of `P` before its SYN packets: the keys are
`0, …, k` in insertion order and the values, concatenated, are the raw packets of `P`. -/
theorem loadAndSplitDataSyn_spec (P : List Packet) :
    ∃ groups : List (List Packet), SynCut P groups ∧ groups ≠ [] ∧
      loadAndSplitDataSyn P =
        (List.range groups.length).zip (groups.map (List.map Packet.raw)) ∧
      (loadAndSplitDataSyn P).map Prod.fst = List.range groups.length ∧
      ((loadAndSplitDataSyn P).map Prod.snd).flatten = P.map Packet.raw := by
  obtain ⟨groups, hcut, hne, hresult⟩ := loadAndSplitDataSyn_eq_zip P
  refine ⟨groups, hcut, hne, hresult, ?_, ?_⟩
  · rw [hresult, List.map_fst_zip _ _ (by simp)]
  · rw [hresult, List.map_snd_zip _ _ (by simp), ← List.map_flatten, hcut.flatten_eq]

/-- A cut has one group more than there are SYN packets after the first packet: each later
group holds one, at its head. -/
theorem SynCut.length_eq {P : List Packet} {groups : List (List Packet)} (h : SynCut P groups)
    (hne : groups ≠ []) : groups.length = (P.drop 1).countP Packet.isSyn + 1 := by
  obtain ⟨g, gs, rfl⟩ := List.exists_cons_of_ne_nil hne
  have hone : ∀ grp ∈ gs, grp.countP Packet.isSyn = 1 := by
    intro grp hgrp
    obtain ⟨p, hp, hsyn⟩ := h.head_syn grp hgrp
    obtain ⟨q, rest, rfl⟩ := List.exists_cons_of_ne_nil (show grp ≠ [] by rintro rfl; simp at hp)
    have htail : rest.countP Packet.isSyn = 0 := List.countP_eq_zero.2 fun x hx => by
      simpa using h.tail_not_syn _ (List.mem_cons_of_mem g hgrp) x hx
    obtain rfl : q = p := by simpa using hp
    rw [List.countP_cons, htail, if_pos hsyn]
  have hflat : gs.flatten.countP Packet.isSyn = gs.length := by
    rw [List.countP_flatten, List.map_congr_left hone]
    simp
  rcases g with _ | ⟨c, g⟩
  · -- an empty first group means an empty capture
    have hP : P = [] := by_contra fun hP => h.ne_nil hP [] (List.mem_cons_self _ _) rfl
    have hflatP : gs.flatten = P := by simpa using h.flatten_eq
    simp [hP, ← hflat, hflatP]
  · have htail : g.countP Packet.isSyn = 0 := List.countP_eq_zero.2 fun x hx => by
      simpa using h.tail_not_syn _ (List.mem_cons_self _ _) x hx
    simp [← h.flatten_eq, htail, hflat]

/-- `load_and_split_data_syn` returns one sequence more than there are SYN packets after the
first packet. -/
theorem length_loadAndSplitDataSyn (P : List Packet) :
    (loadAndSplitDataSyn P).length = (P.drop 1).countP Packet.isSyn + 1 := by
  obtain ⟨groups, hcut, hne, hresult⟩ := loadAndSplitDataSyn_eq_zip P
  rw [hresult, List.length_zip, List.length_range, List.length_map, min_self, hcut.length_eq hne]

/-- Without a SYN packet after the first packet, the capture is one sequence. -/
theorem loadAndSplitDataSyn_of_countP_eq_zero {P : List Packet}
    (h : (P.drop 1).countP Packet.isSyn = 0) :
    (loadAndSplitDataSyn P).map Prod.snd = [P.map Packet.raw] := by
  obtain ⟨groups, hcut, hne, hresult⟩ := loadAndSplitDataSyn_eq_zip P
  obtain ⟨g, rfl⟩ := List.length_eq_one.1 (by rw [hcut.length_eq hne, h])
  have hg : g = P := by simpa using hcut.flatten_eq
  rw [hresult, hg]
  rfl

/-! ## `str` of a port -/

/-- `toDigits b` with enough fuel writes the base-`b` digits of a positive number, most
significant first, in front of the accumulator. -/
theorem toDigitsCore_eq {b : ℕ} (hb : 1 < b) (fuel : ℕ) {n : ℕ} (hn : 0 < n) (hfuel : n ≤ fuel)
    (ds : List Char) :
    Nat.toDigitsCore b fuel n ds = ((Nat.digits b n).map Nat.digitChar).reverse ++ ds := by
  induction fuel generalizing n ds with
  | zero => omega
  | succ fuel ih =>
    rw [Nat.toDigitsCore, Nat.digits_def' hb hn]
    split
    · simp [*]
    · rw [ih (Nat.pos_of_ne_zero ‹_›) (by have := Nat.div_lt_self hn hb; omega)]
      simp

/-- The digits of `str(n)` read back give `n`. -/
theorem ofDigits_toDigits_ten (n : ℕ) :
    Nat.ofDigits 10 ((Nat.toDigits 10 n).reverse.map fun c => c.toNat - 48) = n := by
  rcases Nat.eq_zero_or_pos n with rfl | hn
  · rfl
  · have hdigit : ∀ d < 10, (Nat.digitChar d).toNat - 48 = d := by decide
    rw [Nat.toDigits, toDigitsCore_eq (by norm_num) _ hn (by omega), List.append_nil,
      List.reverse_reverse, List.map_map]
    conv_rhs => rw [← Nat.ofDigits_digits 10 n]
    congr 1
    exact (List.map_congr_left fun d hd => hdigit d (Nat.digits_lt_base (by norm_num) hd)).trans
      (List.map_id _)

/-- `str` is injective on ports, so `str(port)` names one group per port. -/
theorem toString_injective : Function.Injective (toString : ℕ → String) := by
  intro m n h
  have hdigits : Nat.toDigits 10 m = Nat.toDigits 10 n := congrArg String.data h
  rw [← ofDigits_toDigits_ten m, hdigits, ofDigits_toDigits_ten]

/-! ## Splitting on ports -/

/-- The `port` a packet is grouped under: the source port of the sender's IP/TCP packets,
else the destination port of the target's, else none, and the loop skips the packet. -/
def packetPort (ipAddrSender ipAddrTarget : String) (pkt : Packet) : Option ℕ :=
  if pkt.hasIp && pkt.hasTcp then
    if pkt.src = ipAddrSender then some pkt.sport
    else if pkt.src = ipAddrTarget then some pkt.dport
    else none
  else none

/-- The loop variables of `load_and_split_data_ports`. -/
structure PortSplitState where
  seenPorts : List ℕ
  packetsFilteredSplit : List (String × List (List UInt8))

/-- One pass of the loop: a port seen before has the packet appended to its group, a new port
is recorded and gets a group of its own. -/
def portSplitStep (ipAddrSender ipAddrTarget : String) (s : PortSplitState) (pkt : Packet) :
    Except PyError PortSplitState :=
  match packetPort ipAddrSender ipAddrTarget pkt with
  | none => .ok s
  | some port =>
    if port ∈ s.seenPorts then
      (fun split => ⟨s.seenPorts, split⟩) <$>
        dictAppend s.packetsFilteredSplit (toString port) pkt.raw
    else .ok ⟨s.seenPorts ++ [port], dictSet s.packetsFilteredSplit (toString port) [pkt.raw]⟩

/-- `load_and_split_data_ports` on the packets `load_data` returned. -/
def loadAndSplitDataPorts (packetsFiltered : List Packet) (ipAddrSender ipAddrTarget : String) :
    Except PyError (List (String × List (List UInt8))) := do
  let s ← packetsFiltered.foldlM (portSplitStep ipAddrSender ipAddrTarget) ⟨[], []⟩
  return s.packetsFilteredSplit

section Ports

variable (ipAddrSender ipAddrTarget : String)

/-- The group of `port` after the packets `done`: their raw bytes, in capture order. -/
def portGroup (done : List Packet) (port : ℕ) : List (List UInt8) :=
  (done.filter fun pkt => packetPort ipAddrSender ipAddrTarget pkt = some port).map Packet.raw

/-- The loop state after the packets `done`, which met the ports `ports` in this order. -/
def portSplitOf (done : List Packet) (ports : List ℕ) : PortSplitState :=
  ⟨ports, ports.map fun port => (toString port, portGroup ipAddrSender ipAddrTarget done port)⟩

/-- `ports` lists, once each, the ports of the packets `done`. -/
structure PortsSeen (done : List Packet) (ports : List ℕ) : Prop where
  nodup : ports.Nodup
  mem_iff : ∀ port, port ∈ ports ↔ port ∈ done.filterMap (packetPort ipAddrSender ipAddrTarget)

variable {ipAddrSender ipAddrTarget}

theorem portGroup_append_singleton (done : List Packet) (pkt : Packet) (port : ℕ) :
    portGroup ipAddrSender ipAddrTarget (done ++ [pkt]) port =
      portGroup ipAddrSender ipAddrTarget done port ++
        if packetPort ipAddrSender ipAddrTarget pkt = some port then [pkt.raw] else [] := by
  unfold portGroup
  split <;> simp [*]

theorem map_fst_portSplitOf (done : List Packet) (ports : List ℕ) :
    (portSplitOf ipAddrSender ipAddrTarget done ports).packetsFilteredSplit.map Prod.fst =
      ports.map toString := by
  simp [portSplitOf]

/-- One pass of the loop, from a state that `portSplitOf` describes, never raises and leads
to the state of one more packet. -/
theorem PortsSeen.step {done : List Packet} {ports : List ℕ}
    (h : PortsSeen ipAddrSender ipAddrTarget done ports) (pkt : Packet) :
    ∃ ports', PortsSeen ipAddrSender ipAddrTarget (done ++ [pkt]) ports' ∧
      portSplitStep ipAddrSender ipAddrTarget (portSplitOf ipAddrSender ipAddrTarget done ports)
        pkt = .ok (portSplitOf ipAddrSender ipAddrTarget (done ++ [pkt]) ports') := by
  have hmem : ∀ port, port ∈ (done ++ [pkt]).filterMap (packetPort ipAddrSender ipAddrTarget) ↔
      port ∈ ports ∨ packetPort ipAddrSender ipAddrTarget pkt = some port := by
    simp [List.filterMap_append, h.mem_iff, eq_comm]
  unfold portSplitStep
  split
  case h_1 hnone =>
    refine ⟨ports, ⟨h.nodup, fun port => by rw [hmem, hnone]; simp⟩, ?_⟩
    simp [portSplitOf, portGroup_append_singleton, hnone]
  case h_2 port hport =>
    split_ifs with hseen
    · change port ∈ ports at hseen
      refine ⟨ports, ⟨h.nodup, fun q => ?_⟩, ?_⟩
      · rw [hmem, hport, Option.some_inj]
        exact (or_iff_left_of_imp fun hq => hq ▸ hseen).symm
      rw [dictAppend_of_mem (by rw [map_fst_portSplitOf]; exact List.mem_map_of_mem _ hseen)]
      simp only [portSplitOf, List.map_map, Except.map_ok, Except.ok.injEq, PortSplitState.mk.injEq,
        true_and]
      refine List.map_congr_left fun q _ => ?_
      by_cases hq : q = port
      · subst hq; simp [portGroup_append_singleton, hport]
      · simp [portGroup_append_singleton, hport, hq, Ne.symm hq,
          toString_injective.ne hq]
    · change port ∉ ports at hseen
      refine ⟨ports ++ [port], ⟨h.nodup.append (by simp) (by simpa using hseen),
        fun q => by rw [hmem, hport, Option.some_inj, List.mem_append, List.mem_singleton, eq_comm]⟩, ?_⟩
      rw [dictSet_of_not_mem (by
        simpa [map_fst_portSplitOf, toString_injective.eq_iff] using hseen)]
      have hnew : portGroup ipAddrSender ipAddrTarget done port = [] := by
        simpa [portGroup, List.filter_eq_nil_iff, h.mem_iff] using hseen
      simp only [portSplitOf, List.map_append, List.map_singleton, portGroup_append_singleton,
        hport, hnew, if_true, List.nil_append]
      congr 3
      refine List.map_congr_left fun q hq => ?_
      simp [Option.some_inj, show port ≠ q by rintro rfl; exact hseen hq]

/-- The whole loop never raises and ends in the state `portSplitOf` describes. -/
theorem PortsSeen.foldlM {done : List Packet} {ports : List ℕ}
    (h : PortsSeen ipAddrSender ipAddrTarget done ports) (rest : List Packet) :
    ∃ ports', PortsSeen ipAddrSender ipAddrTarget (done ++ rest) ports' ∧
      rest.foldlM (portSplitStep ipAddrSender ipAddrTarget)
          (portSplitOf ipAddrSender ipAddrTarget done ports) =
        .ok (portSplitOf ipAddrSender ipAddrTarget (done ++ rest) ports') := by
  induction rest generalizing done ports with
  | nil => exact ⟨ports, by simpa using h, by simp⟩
  | cons pkt rest ih =>
    obtain ⟨ports', h', hstep⟩ := h.step pkt
    obtain ⟨ports'', h'', hrun⟩ := ih h'
    refine ⟨ports'', by simpa using h'', ?_⟩
    rw [List.foldlM_cons, hstep]
    simpa using hrun

end Ports

/-- For every capture and every pair of addresses, `load_and_split_data_ports` raises no
`KeyError` and returns one group per port met, keyed `str(port)`, holding the raw packets with
that port in capture order.  It is stated for any test `conn` that picks the packets of each
port. -/
theorem loadAndSplitDataPorts_groups (P : List Packet) {ipAddrSender ipAddrTarget : String}
    (conn : ℕ → Packet → Bool)
    (hconn : ∀ pkt port, packetPort ipAddrSender ipAddrTarget pkt = some port ↔ conn port pkt) :
    ∃ ports : List ℕ, ports.Nodup ∧ (∀ port, port ∈ ports ↔ ∃ pkt ∈ P, conn port pkt) ∧
      loadAndSplitDataPorts P ipAddrSender ipAddrTarget =
        .ok (ports.map fun port => (toString port, (P.filter (conn port)).map Packet.raw)) := by
  have hinit : PortsSeen ipAddrSender ipAddrTarget [] [] := ⟨List.nodup_nil, by simp⟩
  obtain ⟨ports, h, hrun⟩ := hinit.foldlM P
  refine ⟨ports, h.nodup, fun port => by simp [h.mem_iff, hconn], ?_⟩
  simp only [loadAndSplitDataPorts, List.nil_append] at hrun ⊢
  rw [show (⟨[], []⟩ : PortSplitState) = portSplitOf ipAddrSender ipAddrTarget [] [] from rfl,
    hrun]
  simp [portSplitOf, portGroup, hconn]

/-- Spec side: `pkt` belongs to the client connection on port `p`, as the sender's IP/TCP
packet from port `p` or the target's IP/TCP packet to port `p`. -/
def inConnection (ipAddrSender ipAddrTarget : String) (p : ℕ) (pkt : Packet) : Bool :=
  pkt.hasIp && pkt.hasTcp &&
    (pkt.src == ipAddrSender && pkt.sport == p || pkt.src == ipAddrTarget && pkt.dport == p)

/-- With two different addresses the port of a packet is the client port of its connection. -/
theorem packetPort_eq_some_iff_of_ne {ipAddrSender ipAddrTarget : String}
    (hne : ipAddrSender ≠ ipAddrTarget) (pkt : Packet) (port : ℕ) :
    packetPort ipAddrSender ipAddrTarget pkt = some port ↔
      inConnection ipAddrSender ipAddrTarget port pkt := by
  unfold packetPort inConnection
  split_ifs with hlayers hsender htarget <;> simp_all [Ne.symm hne]

/-- When the sender and the target differ, `load_and_split_data_ports` puts each client
connection into the one group keyed by its port, in capture order, and every IP/TCP packet of
the sender or the target into exactly one group. -/
theorem loadAndSplitDataPorts_of_ne (P : List Packet) {ipAddrSender ipAddrTarget : String}
    (hne : ipAddrSender ≠ ipAddrTarget) :
    ∃ ports : List ℕ, ports.Nodup ∧
      (∀ p, p ∈ ports ↔ ∃ pkt ∈ P, inConnection ipAddrSender ipAddrTarget p pkt) ∧
      loadAndSplitDataPorts P ipAddrSender ipAddrTarget =
        .ok (ports.map fun p =>
          (toString p, (P.filter (inConnection ipAddrSender ipAddrTarget p)).map Packet.raw)) ∧
      ∀ pkt ∈ P, pkt.hasIp → pkt.hasTcp → (pkt.src = ipAddrSender ∨ pkt.src = ipAddrTarget) →
        ∃! p, p ∈ ports ∧ inConnection ipAddrSender ipAddrTarget p pkt := by
  obtain ⟨ports, hnodup, hmem, hresult⟩ :=
    loadAndSplitDataPorts_groups P _ (packetPort_eq_some_iff_of_ne hne)
  refine ⟨ports, hnodup, hmem, hresult, fun pkt hpkt hip htcp hsrc => ?_⟩
  obtain ⟨port, hport⟩ : ∃ port, packetPort ipAddrSender ipAddrTarget pkt = some port := by
    unfold packetPort
    split_ifs <;> simp_all
  refine ⟨port, ⟨(hmem port).2 ⟨pkt, hpkt, ?_⟩, ?_⟩, fun q hq => ?_⟩
  all_goals simp only [← packetPort_eq_some_iff_of_ne hne, hport, Option.some_inj] at *
  exact hq.2.symm

theorem loadAndSplitDataPorts_of_ne_of_two_hosts :
    ("10.0.0.1" : String) ≠ "10.0.0.2" ∧
      ∃ ports : List ℕ, ports.Nodup ∧
        (∀ p, p ∈ ports ↔ ∃ pkt ∈ [⟨true, true, "S", "10.0.0.1", 40000, 21, [1]⟩],
          inConnection "10.0.0.1" "10.0.0.2" p pkt) ∧
        loadAndSplitDataPorts [⟨true, true, "S", "10.0.0.1", 40000, 21, [1]⟩] "10.0.0.1"
            "10.0.0.2" =
          .ok (ports.map fun p => (toString p,
            ([⟨true, true, "S", "10.0.0.1", 40000, 21, [1]⟩] : List Packet).filter
              (inConnection "10.0.0.1" "10.0.0.2" p) |>.map Packet.raw)) ∧
        ∀ pkt ∈ [⟨true, true, "S", "10.0.0.1", 40000, 21, [1]⟩], pkt.hasIp → pkt.hasTcp →
          (pkt.src = "10.0.0.1" ∨ pkt.src = "10.0.0.2") →
          ∃! p, p ∈ ports ∧ inConnection "10.0.0.1" "10.0.0.2" p pkt :=
  ⟨by decide, loadAndSplitDataPorts_of_ne _ (by decide)⟩

/-- When the sender and the target are one address, every IP/TCP packet from it is grouped by
its source port, so the target's packets go to the group of the server's port.  There is one
group for each source port of these packets, and no other group. -/
theorem loadAndSplitDataPorts_of_eq (P : List Packet) (ipAddr : String) :
    ∃ ports : List ℕ, ports.Nodup ∧
      (∀ p, p ∈ ports ↔
        ∃ pkt ∈ P, pkt.hasIp && pkt.hasTcp && pkt.src == ipAddr && pkt.sport == p) ∧
      loadAndSplitDataPorts P ipAddr ipAddr =
        .ok (ports.map fun p => (toString p,
          (P.filter fun pkt => pkt.hasIp && pkt.hasTcp && pkt.src == ipAddr && pkt.sport == p).map
            Packet.raw)) :=
  @loadAndSplitDataPorts_groups P ipAddr ipAddr
    (fun p pkt => pkt.hasIp && pkt.hasTcp && pkt.src == ipAddr && pkt.sport == p)
    (fun pkt port => by unfold packetPort; split_ifs <;> simp_all)

/-- In the scripts' setting, sender and target both `127.0.0.1`, a client's SYN from port
40000 to the server's port 21 and the server's reply to port 40000 both belong to the
connection on port 40000, but are put into two groups, `"40000"` and `"21"`. -/
theorem loadAndSplitDataPorts_loopback :
    inConnection "127.0.0.1" "127.0.0.1" 40000 ⟨true, true, "SA", "127.0.0.1", 21, 40000, [2]⟩ ∧
      loadAndSplitDataPorts
          [⟨true, true, "S", "127.0.0.1", 40000, 21, [1]⟩,
            ⟨true, true, "SA", "127.0.0.1", 21, 40000, [2]⟩]
          "127.0.0.1" "127.0.0.1" =
        .ok [("40000", [[1]]), ("21", [[2]])] :=
  ⟨rfl, rfl⟩

end HmmCoverage
