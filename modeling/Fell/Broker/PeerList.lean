import Fell.Broker.TopicRegistry

/-!
# The peers in a configuration file

A configuration file has a section `peers`, with a line `id = host:repl_port:client_port` for each
broker (`ClusterConfig::load`). The parser of the file is a library, which gives the lines as a map
from the text in front of `=` to that behind it. What `load` does with them is here: it cuts the
text at its first two colons, and reads the numbers with `std::stoul`, which throws an exception if
there is no number. A line without two colons is passed over.

A host with a colon in it, such as an IPv6 address, is cut in the wrong place.

* `addPeer_of_count_lt`: what has fewer than two colons is passed over;
* `cut_of_loadPeers`: no host that is read has a colon;
* `loadPeers_eq_iff`: so the peers are read as they are written if no host has a colon, and never
  otherwise.
-/

namespace Fell.Replication.ClusterConfig

open Platform Broker

/-! ## Text -/

/-- A text of bytes. -/
def text (bs : Bytes) : String := String.ofList (bs.map Char.ofUInt8)

theorem text_injective : Function.Injective text := by
  intro bs bs' h
  have hchar : Function.Injective Char.ofUInt8 := fun b b' hb =>
    UInt8.toUInt32_inj.1 (congrArg Char.val hb)
  exact List.map_injective_iff.2 hchar (String.ofList_injective h)

/-- `std::string::find`, of a character from a position on. -/
def find (c : UInt8) (s : Bytes) (pos : ℕ) : Option ℕ :=
  ((s.drop pos).findIdx? (· == c)).map (pos + ·)

theorem find_append {c : UInt8} {s : Bytes} (hs : c ∉ s) (before tl : Bytes) :
    find c (before ++ (s ++ c :: tl)) before.length = some (before.length + s.length) := by
  have hnone : s.findIdx? (· == c) = none :=
    List.findIdx?_eq_none_iff.2 fun x hx => beq_eq_false_iff_ne.2 fun h => hs (h ▸ hx)
  have hidx : (s ++ c :: tl).findIdx? (· == c) = some s.length := by
    rw [List.findIdx?_append, hnone, List.findIdx?_cons, if_pos (beq_self_eq_true c)]
    exact congrArg some (Nat.zero_add _)
  rw [find, List.drop_left, hidx, Option.map_some]

theorem mem_drop_of_find {c : UInt8} {s : Bytes} {pos i : ℕ} (h : find c s pos = some i) :
    c ∈ s.drop pos := by
  obtain ⟨k, hk, -⟩ := Option.map_eq_some_iff.1 h
  obtain ⟨hlt, hc, -⟩ := List.findIdx?_eq_some_iff_getElem.1 hk
  exact beq_iff_eq.1 hc ▸ List.getElem_mem hlt

/-- What comes before the first occurrence. -/
theorem not_mem_take_of_find {c : UInt8} {s : Bytes} {i : ℕ} (h : find c s 0 = some i) :
    c ∉ s.take i := by
  obtain ⟨k, hk, rfl⟩ := Option.map_eq_some_iff.1 h
  rw [List.drop_zero] at hk
  obtain ⟨_, -, hbefore⟩ := List.findIdx?_eq_some_iff_getElem.1 hk
  intro hmem
  obtain ⟨j, hj, hc⟩ := List.mem_take_iff_getElem.1 hmem
  exact hbefore j (by omega) (by rw [hc]; exact beq_self_eq_true c)

/-! ## The peers -/

/-- An entry of the map is added to the peers. It is `none` if there is an exception. On Linux,
    `std::stoul` is `std::stoull`. What it returns is cast to the types of the fields. -/
def addPeer (peers : List BrokerAddr) (peer : Bytes × Bytes) : Option (List BrokerAddr) :=
  let colon1 := find 58 peer.2 0
  -- Without a colon, `colon1 + 1` is zero.
  let colon2 := find 58 peer.2 (colon1.elim 0 (· + 1))
  match colon1, colon2 with
  | some i, some j =>
    (stoull peer.1).bind fun brokerId =>
      (stoull ((peer.2.drop (i + 1)).take (j - i - 1))).bind fun replPort =>
        (stoull (peer.2.drop (j + 1))).map fun clientPort =>
          peers ++ [⟨UInt32.ofNat brokerId, text (peer.2.take i), UInt16.ofNat replPort,
            UInt16.ofNat clientPort⟩]
  | _, _ => some peers

/-- The loop of `load` over the section `peers`. -/
def loadPeers (entries : List (Bytes × Bytes)) : Option (List BrokerAddr) :=
  entries.foldlM addPeer []

/-- A broker, as it is to be written in the file. -/
structure Peer where
  brokerId : UInt32
  host : Bytes
  replPort : UInt16
  clientPort : UInt16

/-- Its line. -/
def Peer.line (a : Peer) : Bytes × Bytes :=
  (toDecimal a.brokerId.toNat,
    a.host ++ 58 :: (toDecimal a.replPort.toNat ++ 58 :: toDecimal a.clientPort.toNat))

/-- Its address. -/
def Peer.addr (a : Peer) : BrokerAddr := ⟨a.brokerId, text a.host, a.replPort, a.clientPort⟩

/-- A colon is not a digit. -/
theorem colon_not_mem_toDecimal (n : ℕ) : (58 : UInt8) ∉ toDecimal n :=
  fun h => absurd (mem_toDecimal h).2 (by decide)

/-- A text with two colons, cut at the first of them. -/
theorem addPeer_of_colons {key host repl client : Bytes} (hhost : 58 ∉ host) (hrepl : 58 ∉ repl)
    (peers : List BrokerAddr) :
    addPeer peers (key, host ++ 58 :: (repl ++ 58 :: client)) =
      (stoull key).bind fun brokerId => (stoull repl).bind fun replPort =>
        (stoull client).map fun clientPort => peers ++ [⟨UInt32.ofNat brokerId, text host,
          UInt16.ofNat replPort, UInt16.ofNat clientPort⟩] := by
  have hcolon1 : find 58 (host ++ 58 :: (repl ++ 58 :: client)) 0 = some host.length := by
    have h := find_append hhost [] (repl ++ 58 :: client)
    rwa [List.length_nil, Nat.zero_add] at h
  have hsplit : host ++ 58 :: (repl ++ 58 :: client) = (host ++ [58]) ++ (repl ++ 58 :: client) :=
    (List.append_assoc host [58] _).symm
  have hlen : host.length + 1 = (host ++ [58]).length := by
    rw [List.length_append, List.length_singleton]
  have hcolon2 : find 58 (host ++ 58 :: (repl ++ 58 :: client)) (host.length + 1) =
      some (host.length + 1 + repl.length) := by
    rw [hsplit, hlen]
    exact find_append hrepl (host ++ [58]) client
  have hmid : (host ++ 58 :: (repl ++ 58 :: client)).drop (host.length + 1) =
      repl ++ 58 :: client := by
    rw [hsplit, hlen, List.drop_left]
  have hwidth : host.length + 1 + repl.length - host.length - 1 = repl.length := by omega
  have hend : (host ++ 58 :: (repl ++ 58 :: client)).drop (host.length + 1 + repl.length + 1) =
      client := by
    rw [Nat.add_assoc, ← List.drop_drop, hmid, ← List.drop_drop, List.drop_left]
    rfl
  simp only [addPeer, hcolon1, Option.elim_some, hcolon2, hmid, hwidth, hend, List.take_left]

/-- A line whose host has no colon is read as it is written. -/
theorem addPeer_line {a : Peer} (hhost : 58 ∉ a.host) (peers : List BrokerAddr) :
    addPeer peers a.line = some (peers ++ [a.addr]) := by
  have hid := a.brokerId.toNat_lt
  have hrepl := a.replPort.toNat_lt
  have hclient := a.clientPort.toNat_lt
  rw [Peer.line, addPeer_of_colons hhost (colon_not_mem_toDecimal _),
    stoull_toDecimal (by omega), stoull_toDecimal (by omega), stoull_toDecimal (by omega)]
  simp [Peer.addr]

/-- The host has no colon. -/
def Cut (p : BrokerAddr) : Prop := ∃ host, 58 ∉ host ∧ p.host = text host

theorem cut_of_addPeer {peers peers' : List BrokerAddr} {peer : Bytes × Bytes}
    (h : addPeer peers peer = some peers') (hcut : ∀ p ∈ peers, Cut p) : ∀ p ∈ peers', Cut p := by
  simp only [addPeer] at h
  split at h
  · rename_i i j hcolon1 hcolon2
    obtain ⟨brokerId, -, h⟩ := Option.bind_eq_some_iff.1 h
    obtain ⟨replPort, -, h⟩ := Option.bind_eq_some_iff.1 h
    obtain ⟨clientPort, -, rfl⟩ := Option.map_eq_some_iff.1 h
    intro p hp
    rcases List.mem_append.1 hp with hp | hp
    · exact hcut p hp
    · rw [List.mem_singleton.1 hp]
      exact ⟨_, not_mem_take_of_find hcolon1, rfl⟩
  · exact Option.some.inj h ▸ hcut

/-- The hosts of the peers that are read have no colon. -/
theorem cut_of_loadPeers {entries : List (Bytes × Bytes)} {peers : List BrokerAddr}
    (h : loadPeers entries = some peers) : ∀ p ∈ peers, Cut p := by
  suffices hfold : ∀ acc, entries.foldlM addPeer acc = some peers → (∀ p ∈ acc, Cut p) →
      ∀ p ∈ peers, Cut p from hfold [] h fun _ hp => absurd hp List.not_mem_nil
  clear h
  induction entries with
  | nil =>
    intro acc h hcut
    exact Option.some.inj h ▸ hcut
  | cons entry entries ih =>
    intro acc h hcut
    rw [List.foldlM_cons] at h
    obtain ⟨acc', hacc', h⟩ := Option.bind_eq_some_iff.1 h
    exact ih acc' h (cut_of_addPeer hacc' hcut)

/-! ## What is passed over -/

/-- A text with fewer than two colons. -/
theorem addPeer_of_count_lt {peer : Bytes × Bytes} (h : peer.2.count 58 < 2)
    (peers : List BrokerAddr) : addPeer peers peer = some peers := by
  simp only [addPeer]
  split
  · rename_i i j hcolon1 hcolon2
    -- There is one colon at `i`, and one behind it.
    rw [hcolon1] at hcolon2
    have hsecond : 0 < (peer.2.drop (i + 1)).count 58 :=
      List.count_pos_iff.2 (mem_drop_of_find hcolon2)
    obtain ⟨k, hk, rfl⟩ := Option.map_eq_some_iff.1 hcolon1
    rw [List.drop_zero] at hk
    obtain ⟨hlt, hc, -⟩ := List.findIdx?_eq_some_iff_getElem.1 hk
    rw [Nat.zero_add] at hsecond
    have hsplit : peer.2 = peer.2.take k ++ 58 :: peer.2.drop (k + 1) := by
      rw [← beq_iff_eq.1 hc, List.getElem_cons_drop, List.take_append_drop]
    rw [hsplit, List.count_append, List.count_cons_self] at h
    omega
  · rfl

/-- The other entries make no difference. -/
theorem loadPeers_filter (entries : List (Bytes × Bytes)) :
    loadPeers (entries.filter fun e => 2 ≤ e.2.count 58) = loadPeers entries := by
  suffices hfold : ∀ acc, (entries.filter fun e => 2 ≤ e.2.count 58).foldlM addPeer acc =
      entries.foldlM addPeer acc from hfold []
  induction entries with
  | nil => exact fun _ => rfl
  | cons e entries ih =>
    intro acc
    by_cases hcount : 2 ≤ e.2.count 58
    · rw [List.filter_cons, if_pos (decide_eq_true hcount), List.foldlM_cons, List.foldlM_cons]
      exact congrArg _ (funext ih)
    · rw [List.filter_cons, if_neg (by simpa using hcount), List.foldlM_cons,
        addPeer_of_count_lt (Nat.not_le.1 hcount)]
      exact ih acc

/-- In every file that lists brokers line by line, in whatever order, and with whatever other
    entries that have fewer than two colons: the peers that are read are those listed exactly if no
    host has a colon. -/
theorem loadPeers_eq_iff {entries : List (Bytes × Bytes)} {as : List Peer}
    (hlines : (entries.filter fun e => 2 ≤ e.2.count 58) = as.map Peer.line) :
    loadPeers entries = some (as.map Peer.addr) ↔ ∀ a ∈ as, 58 ∉ a.host := by
  constructor
  · intro h a ha
    obtain ⟨host, hhost, heq⟩ := cut_of_loadPeers h a.addr (List.mem_map_of_mem ha)
    exact text_injective heq ▸ hhost
  · intro h
    rw [← loadPeers_filter, hlines]
    clear hlines
    suffices hfold : ∀ acc, (as.map Peer.line).foldlM addPeer acc = some (acc ++ as.map Peer.addr)
      from hfold []
    induction as with
    | nil => exact fun acc => congrArg some (List.append_nil acc).symm
    | cons a as ih =>
      intro acc
      obtain ⟨ha, has⟩ := List.forall_mem_cons.1 h
      rw [List.map_cons, List.foldlM_cons, addPeer_line ha]
      refine (ih has _).trans ?_
      rw [List.append_assoc]
      rfl

/-- A file with two brokers, and another entry between them. -/
theorem loadPeers_eq_two : ∃ (entries : List (Bytes × Bytes)) (as : List Peer),
    entries.length = 3 ∧ as.length = 2 ∧
      (entries.filter fun e => 2 ≤ e.2.count 58) = as.map Peer.line ∧
      loadPeers entries = some (as.map Peer.addr) := by
  let broker₀ : Peer := ⟨0, ascii "localhost", 8700, 7700⟩
  let broker₁ : Peer := ⟨1, ascii "10.0.0.2", 8701, 7701⟩
  have hlines : ([broker₀.line, (ascii "note", ascii "unused"), broker₁.line].filter
      fun e => 2 ≤ e.2.count 58) = [broker₀, broker₁].map Peer.line := by decide +kernel
  exact ⟨_, _, rfl, rfl, hlines, (loadPeers_eq_iff hlines).2 (by decide +kernel)⟩

-- With an IPv6 address there is an exception: there is no number between the first two colons.
example : loadPeers [(ascii "0", ascii "::1:8700:7700")] = none := by decide +kernel

end Fell.Replication.ClusterConfig
