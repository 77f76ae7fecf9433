import SchnorrMpc.Lib.Codec
import SchnorrMpc.Properties.PeerTable
import SchnorrMpc.Storeman.AddressBook

/-!
# What the followers make of the address book

The leader cuts the text of an address at its first colon, which for an address
of the new kind is inside of the brackets, and the follower makes a URL of what
is left. A follower that is told such an address stops there, drops the
connection and dials none of the peers behind it in the list.
-/
namespace SchnorrMpc

open Lib Discover Storeman

/-- What is known of `url.Parse` for texts without escapes: a URL that is accepted has the parts
that are written, and numbers with dots and a port are accepted as a host. -/
structure UrlLaws (urls : UrlEnv) : Prop where
  parts : ∀ (user host : Bytes) (url : URL), (∀ char ∈ user, (hexValue char).isSome) →
    (∀ char ∈ host, (hexValue char).isSome ∨ char = 46 ∨ char = 58 ∨ char = 91) →
    urls.parse (utf8 "enode://" ++ user ++ utf8 "@" ++ host) = .ok url →
    url = ⟨utf8 "enode", some user, host, []⟩
  accepts : ∀ user host port : Bytes, (∀ char ∈ user, (hexValue char).isSome) →
    (∀ char ∈ host, char = 46 ∨ (48 ≤ char.toNat ∧ char.toNat ≤ 57)) →
    (∀ char ∈ port, 48 ≤ char.toNat ∧ char.toNat ≤ 57) →
    ∃ url, urls.parse (utf8 "enode://" ++ user ++ utf8 "@" ++ (host ++ 58 :: port)) = .ok url

/-! ### Ids as text -/

theorem isSome_of_mem_idString {id : NodeID} {char : UInt8} (member : char ∈ idString id) :
    (hexValue char).isSome := by
  obtain ⟨digit, small, rfl⟩ := mem_hexEncode member
  rw [hexValue_hexDigit digit small]
  rfl

theorem hexID_idString (id : NodeID) : hexID (idString id) = .ok id := by
  have unmarked : (idString id).take 2 ≠ utf8 "0x" := by
    intro marked
    have cross : (120 : UInt8) ∈ idString id :=
      List.mem_of_mem_take (marked ▸ (by decide : (120 : UInt8) ∈ utf8 "0x"))
    exact absurd (isSome_of_mem_idString cross) (by decide)
  have fits (width : Nat) (bits : BitVec (8 * width)) : bits.toNat < 256 ^ width :=
    Nat.lt_of_lt_of_eq bits.isLt (Nat.pow_mul 2 8 width)
  have back : beNat (bePad 64 id.toNat) = id.toNat := beNat_bePad_of_lt (fits 64 id)
  have decoded : hexDecode (idString id) = .ok (bePad 64 id.toNat) := hexDecode_hexEncode _
  simp [hexID, unmarked, decoded, back]

theorem idString_inj {id other : NodeID} : idString id = idString other ↔ id = other := by
  constructor
  · intro same
    have read := hexID_idString id
    rw [same, hexID_idString] at read
    exact (Except.ok.inj read).symm
  · rintro rfl
    rfl

/-! ### One entry of the book -/

/-- What is left of an address: the text before its first colon. -/
def shownIp (addr : TCPAddr) : Bytes := addr.string.takeWhile (· ≠ 58)

theorem takeWhile_colon {front back : Bytes} (absent : 58 ∉ front) :
    (front ++ 58 :: back).takeWhile (fun char : UInt8 => char ≠ 58) = front := by
  rw [List.takeWhile_append_of_pos]
  · simp
  · intro char member
    simp only [ne_eq, decide_eq_true_eq]
    rintro rfl
    exact absent member

theorem shownIp_v4 {addr : TCPAddr} (isV4 : addr.ip.IsV4) : shownIp addr = addr.ip.dotted := by
  rw [shownIp, TCPAddr.string_v4 isV4, List.append_assoc]
  apply takeWhile_colon
  intro member
  simpa using IP.mem_dotted member

theorem shownIp_v6 {addr : TCPAddr} (isV6 : ¬addr.ip.IsV4) :
    ∃ first, shownIp addr = 91 :: first ∧ ∀ char ∈ first, (hexValue char).isSome := by
  obtain ⟨first, rest, shape, digits⟩ := TCPAddr.string_v6 isV6
  have isDigit : ∀ char ∈ first, (hexValue char).isSome := fun char member =>
    Option.isSome_iff_exists.mpr (digits char member)
  refine ⟨first, ?_, isDigit⟩
  rw [shownIp, shape]
  apply takeWhile_colon
  intro member
  rcases List.mem_cons.mp member with bracket | inside
  · exact absurd bracket (by decide)
  · exact absurd (isDigit _ inside) (by decide)

theorem isSome_of_digit {char : UInt8} (digit : 48 ≤ char.toNat ∧ char.toNat ≤ 57) :
    (hexValue char).isSome := by
  simp [hexValue, digit]

theorem incompleteNodeURL_peerURL (nodeid ip port : Bytes) :
    incompleteNodeURL (peerURL nodeid ip port) = none := by
  have scheme : (utf8 "enode://").length = 8 := by decide
  have front : peerURL nodeid ip port =
      utf8 "enode://" ++ (nodeid ++ utf8 "@" ++ ip ++ utf8 ":" ++ port) := by
    simp [peerURL]
  have sign : ¬∀ char ∈ nodeid ++ utf8 "@" ++ ip ++ utf8 ":" ++ port, (hexValue char).isSome := by
    intro digits
    have := digits 64 (by simp [show utf8 "@" = [64] by decide])
    exact absurd this (by decide)
  rw [incompleteNodeURL, front, ← scheme, List.take_left, List.drop_left]
  simp only [show (utf8 "enode://").map lowerCase = utf8 "enode://" by decide, if_true]
  rw [if_neg fun both => sign (List.all_eq_true.mp both.2)]

section Entry

variable {urls : UrlEnv} (laws : UrlLaws urls) {id : NodeID} {addr : TCPAddr} {port : Bytes}

include laws

theorem parse_peerURL {ip : Bytes} {url : URL}
    (plain : ∀ char ∈ ip, (hexValue char).isSome ∨ char = 46 ∨ char = 91)
    (digits : ∀ char ∈ port, 48 ≤ char.toNat ∧ char.toNat ≤ 57)
    (parsed : urls.parse (peerURL (idString id) ip port) = .ok url) :
    url = ⟨utf8 "enode", some (idString id), ip ++ 58 :: port, []⟩ := by
  apply laws.parts _ _ _ fun char => isSome_of_mem_idString
  · intro char member
    rcases List.mem_append.mp member with inIp | inPort
    · rcases plain char inIp with digit | rfl | rfl <;> simp_all
    · rcases List.mem_cons.mp inPort with rfl | inPort
      · simp
      · exact .inl (isSome_of_digit (digits char inPort))
  · rw [← parsed, peerURL, show utf8 ":" = [58] by decide]
    simp

/-- An old address and a port are read back. -/
theorem parseNode_v4 (isV4 : addr.ip.IsV4) {n : Nat} (value : decimalValue port = some n)
    (small : n < 2 ^ 16) :
    parseNode urls (peerURL (idString id) (shownIp addr) port) =
      .ok ⟨some addr.ip, .ofNat n, .ofNat n, id⟩ := by
  have digits := (digits_of_decimalValue value).2
  have plain : ∀ char ∈ addr.ip.dotted, char = 46 ∨ (48 ≤ char.toNat ∧ char.toNat ≤ 57) :=
    fun char => IP.mem_dotted
  obtain ⟨url, parsed⟩ := laws.accepts (idString id) addr.ip.dotted port
    (fun char => isSome_of_mem_idString) plain digits
  have same : peerURL (idString id) (shownIp addr) port =
      utf8 "enode://" ++ idString id ++ utf8 "@" ++ (addr.ip.dotted ++ 58 :: port) := by
    rw [peerURL, shownIp_v4 isV4, show utf8 ":" = [58] by decide]
    simp
  rw [← same] at parsed
  have shape := parse_peerURL laws (fun char member => by
    rw [shownIp_v4 isV4] at member
    exact (plain char member).elim (fun dot => .inr (.inl dot)) fun digit =>
      .inl (isSome_of_digit digit))
    digits parsed
  have split : splitHostPort (addr.ip.dotted ++ 58 :: port) = .ok (addr.ip.dotted, port) := by
    apply splitHostPort_plain
    · intro char member
      rcases plain char member with rfl | digit
      · decide
      · refine ⟨?_, ?_, ?_, ?_⟩ <;> rintro rfl <;> simp at digit
    · intro char member
      have digit := digits char member
      refine ⟨?_, ?_, ?_⟩ <;> rintro rfl <;> simp at digit
  rw [parseNode, incompleteNodeURL_peerURL, parseComplete, parsed, shape, shownIp_v4 isV4]
  simp only [Except.bind, bind, hexID_idString, Except.mapError, split, IP.parseIP_dotted _ isV4,
    parsePort, value, Option.bind, small, if_true]
  rfl

/-- What is left of a new address is no host. -/
theorem parseNode_v6 (isV6 : ¬addr.ip.IsV4)
    (digits : ∀ char ∈ port, 48 ≤ char.toNat ∧ char.toNat ≤ 57) :
    ∃ error, parseNode urls (peerURL (idString id) (shownIp addr) port) = .error error := by
  obtain ⟨first, shown, hex⟩ := shownIp_v6 isV6
  rw [parseNode, incompleteNodeURL_peerURL, parseComplete]
  cases parsed : urls.parse (peerURL (idString id) (shownIp addr) port) with
  | error error => exact ⟨error, rfl⟩
  | ok url =>
    have shape := parse_peerURL laws (fun char member => by
      rw [shown] at member
      exact (List.mem_cons.mp member).elim (fun bracket => .inr (.inr bracket))
        fun inside => .inl (hex char inside)) digits parsed
    have unclosed : 93 ∉ first ++ 58 :: port := by
      intro member
      rcases List.mem_append.mp member with inFirst | inPort
      · exact absurd (hex _ inFirst) (by decide)
      · rcases List.mem_cons.mp inPort with colon | inPort
        · exact absurd colon (by decide)
        · simpa using digits _ inPort
    obtain ⟨refused, refuses⟩ := splitHostPort_open unclosed
    rw [shape, shown]
    simp only [Except.bind, bind, hexID_idString, Except.mapError, List.cons_append, refuses]
    exact ⟨_, rfl⟩

end Entry

/-! ### The whole book -/

/-- The node that a follower should know the peer by. -/
structure Describes (sm : Storeman) (remote : Peer → TCPAddr) (peer : Peer)
    (node : Node) : Prop where
  id : node.id = peer.id
  ip : node.ip = some (remote peer).ip
  port : decimalValue (sm.portOf peer.id) = some node.tcp.toNat

/-- The peers of the table that have told a port, but for the leader. -/
def listed (sm : Storeman) (leader : NodeID) (order : Assoc NodeID Peer) : List Peer :=
  (order.map Prod.snd).filter fun peer => sm.portOf peer.id ≠ [] ∧ peer.id ≠ leader

def bookEntry (sm : Storeman) (remote : Peer → TCPAddr) (peer : Peer) : BookEntry :=
  ⟨shownIp (remote peer), sm.portOf peer.id, idString peer.id⟩

/-- The message has one entry for each of these peers. -/
theorem collectPeers_eq {env : PeerEnv} (resolves : ∀ addr : TCPAddr,
      env.resolveTCPAddr addr.string = .ok addr.string) {sm : Storeman} {leader : NodeID}
    (leads : sm.cfgNodes[0]? = some leader) {remote : Peer → TCPAddr} {order : Assoc NodeID Peer}
    (connected : ∀ entry ∈ order, entry.2.remoteAddress = (remote entry.2).string) :
    sm.collectPeers env order =
      .ok (.ofEntries ((listed sm leader order).map (bookEntry sm remote))) := by
  induction order with
  | nil => rfl
  | cons entry rest ih =>
    obtain ⟨key, peer⟩ := entry
    have tail := ih fun other member => connected other (List.mem_cons_of_mem _ member)
    have here : env.resolveTCPAddr peer.remoteAddress = .ok (remote peer).string := by
      rw [connected (key, peer) List.mem_cons_self]
      exact resolves _
    rw [collectPeers, tail, Outcome.index_of_getElem? leads]
    by_cases unknown : sm.portOf peer.id = []
    · simp [unknown, listed]
    · by_cases isLeader : peer.id = leader
      · simp [isLeader, listed]
      · have other : idString peer.id ≠ idString leader := fun same =>
          isLeader (idString_inj.mp same)
        simp only [unknown, if_false, Outcome.ok_bind, other, here]
        simp [listed, unknown, isLeader, StrmanAllPeers.ofEntries, bookEntry, shownIp]

def Dialled (sm : Storeman) (leader : NodeID) (entry : BookEntry) : Prop :=
  entry.nodeid ≠ idString sm.self ∧ entry.nodeid ≠ idString leader

instance (sm : Storeman) (leader : NodeID) : DecidablePred (Dialled sm leader) :=
  fun _ => inferInstanceAs (Decidable (_ ∧ _))

/-- From any place on, lists of one length are dialled to the end exactly when each URL is that of a
node. -/
theorem dialNodes_continues_iff (urls : UrlEnv) {sm : Storeman} {leader : NodeID}
    (leads : sm.cfgNodes[0]? = some leader) (seen entries : List BookEntry) (nodes : List Node) :
    sm.dialNodes urls (.ofEntries (seen ++ entries))
        ((entries.map (·.port)).zipIdx seen.length) = (nodes, .continues) ↔
      List.Forall₂ (fun entry node =>
          parseNode urls (peerURL entry.nodeid entry.ip entry.port) = .ok node)
        (entries.filter (Dialled sm leader ·)) nodes := by
  induction entries generalizing seen nodes with
  | nil => cases nodes <;> simp [dialNodes]
  | cons entry rest ih =>
    -- the places before this entry are those already seen
    have later := ih (seen ++ [entry])
    rw [List.append_assoc, List.singleton_append, List.length_append, List.length_singleton]
      at later
    have named : (StrmanAllPeers.ofEntries (seen ++ entry :: rest)).nodeid[seen.length]? =
        some entry.nodeid := by
      simp [StrmanAllPeers.ofEntries]
    have addressed : (StrmanAllPeers.ofEntries (seen ++ entry :: rest)).ip[seen.length]? =
        some entry.ip := by
      simp [StrmanAllPeers.ofEntries]
    simp only [List.map_cons, List.zipIdx_cons, dialNodes, named, addressed, leads]
    by_cases own : entry.nodeid = idString sm.self
    · simp only [own, if_true]
      rw [later, List.filter_cons_of_neg (by simp [Dialled, own])]
    · by_cases isLeader : entry.nodeid = idString leader
      · rw [if_neg own, if_pos isLeader, later,
          List.filter_cons_of_neg (by simp [Dialled, isLeader])]
      · simp only [own, isLeader, if_false]
        rw [List.filter_cons_of_pos (by simp [Dialled, own, isLeader]), List.forall₂_cons_left_iff]
        cases parsed : parseNode urls (peerURL entry.nodeid entry.ip entry.port) with
        | error error => simp
        | ok node =>
          simp only [Prod.mk.injEq]
          constructor
          · rintro ⟨rfl, goes⟩
            exact ⟨node, _, rfl, (later _).mp (Prod.ext rfl goes), rfl⟩
          · rintro ⟨_, others, same, read, rfl⟩
            cases same
            have goes := (later others).mpr read
            rw [goes]
            exact ⟨rfl, rfl⟩

theorem forall₂_both_iff {α β : Type} {r s : α → β → Prop} (list : List α) :
    (∃ results, List.Forall₂ r list results ∧ List.Forall₂ s list results) ↔
      ∀ x ∈ list, ∃ y, r x y ∧ s x y := by
  induction list with
  | nil => simp
  | cons x rest ih =>
    rw [List.forall_mem_cons, ← ih]
    constructor
    · rintro ⟨_, first, second⟩
      cases first with
      | cons here later =>
        cases second with
        | cons here' later' => exact ⟨⟨_, here, here'⟩, _, later, later'⟩
    · rintro ⟨⟨y, here, here'⟩, results, later, later'⟩
      exact ⟨y :: results, .cons here later, .cons here' later'⟩

/-- The address is one that the text keeps, and the port is a number. -/
def TextSurvives (sm : Storeman) (remote : Peer → TCPAddr) (peer : Peer) : Prop :=
  (remote peer).ip.IsV4 ∧ ∃ n < 2 ^ 16, decimalValue (sm.portOf peer.id) = some n

theorem describes_iff {urls : UrlEnv} (laws : UrlLaws urls) (sm : Storeman)
    (remote : Peer → TCPAddr) (peer : Peer) :
    (∃ node, parseNode urls
        (peerURL (idString peer.id) (shownIp (remote peer)) (sm.portOf peer.id)) = .ok node ∧
      Describes sm remote peer node) ↔ TextSurvives sm remote peer := by
  constructor
  · rintro ⟨node, parsed, describes⟩
    refine ⟨?_, node.tcp.toNat, node.tcp.toNat_lt, describes.port⟩
    by_contra isV6
    obtain ⟨error, refused⟩ : ∃ error, parseNode urls
        (peerURL (idString peer.id) (shownIp (remote peer)) (sm.portOf peer.id)) = .error error :=
      parseNode_v6 laws isV6 (digits_of_decimalValue describes.port).2
    rw [refused] at parsed
    cases parsed
  · rintro ⟨isV4, n, small, value⟩
    refine ⟨_, parseNode_v4 laws isV4 value small, rfl, rfl, ?_⟩
    rw [value, UInt16.toNat_ofNat_of_lt' small]

/-- The follower adds one node for each peer that the leader has listed, other than itself, and goes
on reading messages. -/
def BookArrives (env : PeerEnv) (urls : UrlEnv) (encode : StrmanAllPeers → Bytes)
    (sm follower : Storeman) (leader : NodeID) (remote : Peer → TCPAddr) (id : NodeID)
    (localPort : Bytes) (order : Assoc NodeID Peer) : Prop :=
  ∃ allp nodes, sm.peersReply env id localPort order = .ok allp ∧
    follower.answered env urls encode allp = (nodes, .continues) ∧
    List.Forall₂ (Describes (sm.reported id localPort) remote)
      ((listed (sm.reported id localPort) leader order).filter (·.id ≠ follower.self)) nodes

/-- The follower reads the book to its end exactly when each URL in it is that of a node. -/
theorem answered_iff {env : PeerEnv} (urls : UrlEnv) {encode : StrmanAllPeers → Bytes}
    (decodes : ∀ allp, env.decodeAllPeers (encode allp) = .ok allp) (sm : Storeman)
    {follower : Storeman} {leader : NodeID} (led : follower.cfgNodes[0]? = some leader)
    (remote : Peer → TCPAddr) (order : Assoc NodeID Peer) (nodes : List Node) :
    follower.answered env urls encode
        (.ofEntries ((listed sm leader order).map (bookEntry sm remote))) = (nodes, .continues) ↔
      List.Forall₂ (fun peer node => parseNode urls
          (peerURL (idString peer.id) (shownIp (remote peer)) (sm.portOf peer.id)) = .ok node)
        ((listed sm leader order).filter (·.id ≠ follower.self)) nodes := by
  -- of the entries, none is the leader's
  have dialled : ((listed sm leader order).map (bookEntry sm remote)).filter
      (Dialled follower leader ·) =
      ((listed sm leader order).filter (·.id ≠ follower.self)).map (bookEntry sm remote) := by
    rw [List.filter_map]
    refine congrArg _ (List.filter_congr fun peer member => ?_)
    have notLeader := (of_decide_eq_true (List.mem_filter.mp member).2).2
    rw [Function.comp_apply, decide_eq_decide, Dialled, bookEntry, ne_eq, ne_eq, idString_inj,
      idString_inj]
    exact and_iff_left notLeader
  have dials := dialNodes_continues_iff urls led [] ((listed sm leader order).map
    (bookEntry sm remote)) nodes
  rw [dialled, List.forall₂_map_left_iff] at dials
  simp only [bookEntry] at dials
  rw [← dials, answered]
  split
  next empty =>
    have none : listed sm leader order = [] := by
      simpa [StrmanAllPeers.ofEntries] using empty
    rw [none]
    rfl
  next => rw [allPeersNodes, decodes]; rfl

/-- The book arrives exactly when each address in it survives; and a message is read within its
lists exactly when there is an id, and an address where one is dialled, for each port up to the
first URL that is no node's. -/
theorem address_book_arrives_iff (env : PeerEnv) (urls : UrlEnv) (laws : UrlLaws urls)
    (parses : ∀ url, env.parseNode url = (parseNode urls url).map Node.id)
    (resolves : ∀ addr : TCPAddr, env.resolveTCPAddr addr.string = .ok addr.string)
    (encode : StrmanAllPeers → Bytes)
    (decodes : ∀ allp, env.decodeAllPeers (encode allp) = .ok allp)
    (sm follower : Storeman) (leader : NodeID) (leads : sm.cfgNodes[0]? = some leader)
    (led : follower.cfgNodes[0]? = some leader) (remote : Peer → TCPAddr)
    (connected : ∀ entry ∈ sm.peers, entry.2.remoteAddress = (remote entry.2).string)
    (id : NodeID) (localPort : Bytes) (order : Assoc NodeID Peer) (iterates : order.Perm sm.peers) :
    (BookArrives env urls encode sm follower leader remote id localPort order ↔
      ∀ entry ∈ sm.peers, (sm.reported id localPort).portOf entry.2.id ≠ [] → entry.2.id ≠ leader →
        entry.2.id ≠ follower.self → TextSurvives (sm.reported id localPort) remote entry.2) ∧
    ∀ allp, (follower.allPeersNodes env urls (encode allp)).2 ≠ .panics ↔
      ∀ (n : Nat) (entry : Bytes × Nat), allp.port.zipIdx[n]? = some entry →
        follower.EntryRead allp entry ∨ ∃ m < n, ∃ earlier,
          allp.port.zipIdx[m]? = some earlier ∧ follower.EntryRefused env allp earlier := by
  refine ⟨?_, fun allp => ?_⟩
  -- the book has the peers of the table, in the order of the iteration
  · have collected : sm.peersReply env id localPort order =
        .ok (.ofEntries ((listed (sm.reported id localPort) leader order).map
          (bookEntry (sm.reported id localPort) remote))) :=
      collectPeers_eq resolves
        (show (sm.reported id localPort).cfgNodes[0]? = some leader from leads) fun entry member =>
          connected entry (iterates.mem_iff.mp member)
    unfold BookArrives
    rw [collected]
    generalize sm.reported id localPort = told
    constructor
    · rintro ⟨_, nodes, built, hears, describes⟩
      cases built
      have read := (answered_iff urls decodes told led remote order nodes).mp hears
      have each := (forall₂_both_iff _).mp ⟨nodes, read, describes⟩
      intro entry member known notLeader other
      refine (describes_iff laws told remote entry.2).mp (each entry.2 ?_)
      refine List.mem_filter.mpr ⟨List.mem_filter.mpr ⟨?_, by simp [known, notLeader]⟩, by simpa⟩
      exact List.mem_map.mpr ⟨entry, iterates.mem_iff.mpr member, rfl⟩
    · intro survive
      have each (peer : Peer)
          (member : peer ∈ (listed told leader order).filter (·.id ≠ follower.self)) :
          TextSurvives told remote peer := by
        obtain ⟨isListed, other⟩ := List.mem_filter.mp member
        obtain ⟨isPeer, kept⟩ := List.mem_filter.mp isListed
        obtain ⟨entry, isEntry, rfl⟩ := List.mem_map.mp isPeer
        obtain ⟨known, notLeader⟩ := of_decide_eq_true kept
        exact survive entry (iterates.mem_iff.mp isEntry) known notLeader (of_decide_eq_true other)
      obtain ⟨nodes, read, describes⟩ := (forall₂_both_iff _).mpr fun peer member =>
        (describes_iff laws told remote peer).mpr (each peer member)
      exact ⟨_, nodes, rfl, (answered_iff urls decodes told led remote order nodes).mpr read,
        describes⟩
  · rw [← dialPeers_panics_iff env follower allp, dialPeers_eq parses, allPeersNodes, decodes]

/-! ### A leader with two peers -/

namespace BookSample

deriving instance Encodable for StrmanAllPeers

/-- A URL is taken apart at its sign, and refused with a bracket in its host. -/
def urls : UrlEnv where
  parse text :=
    let host := ((text.drop 8).dropWhile (· ≠ 64)).drop 1
    if 91 ∈ host then .error (.new (utf8 "missing ']' in host"))
    else .ok ⟨utf8 "enode", some ((text.drop 8).takeWhile (· ≠ 64)), host, []⟩
  parseIPv6 _ := none

theorem parse_eq {user : Bytes} (digits : ∀ char ∈ user, (hexValue char).isSome) (host : Bytes) :
    urls.parse (utf8 "enode://" ++ user ++ utf8 "@" ++ host) =
      if 91 ∈ host then .error (.new (utf8 "missing ']' in host"))
      else .ok ⟨utf8 "enode", some user, host, []⟩ := by
  have rest : (utf8 "enode://" ++ user ++ utf8 "@" ++ host).drop 8 = user ++ 64 :: host := by
    have scheme : (utf8 "enode://").length = 8 := by decide
    rw [← scheme, List.append_assoc, List.append_assoc, List.drop_left,
      show utf8 "@" = [64] by decide]
    rfl
  have plain : ∀ char ∈ user, decide (char ≠ 64) = true := by
    intro char member
    rw [decide_eq_true_iff]
    rintro rfl
    exact absurd (digits _ member) (by decide)
  simp only [urls, rest, List.takeWhile_append_of_pos plain, List.dropWhile_append_of_pos plain]
  simp

theorem laws : UrlLaws urls where
  parts user host url digits _ parsed := by
    rw [parse_eq digits] at parsed
    split at parsed
    · cases parsed
    · exact (Except.ok.inj parsed).symm
  accepts user host port digits plain isPort := by
    have bare : 91 ∉ host ++ 58 :: port := by
      intro member
      rcases List.mem_append.mp member with inHost | inPort
      · simpa using plain _ inHost
      · rcases List.mem_cons.mp inPort with colon | inPort
        · exact absurd colon (by decide)
        · simpa using isPort _ inPort
    exact ⟨_, (parse_eq digits _).trans (if_neg bare)⟩

def env : PeerEnv where
  resolveTCPAddr address := .ok address
  parseNode url := (parseNode urls url).map Node.id
  decodeGetPeers payload := .ok payload
  decodeAllPeers payload := match valueOf payload with
    | some allp => .ok allp
    | none => .error (.new [])
  streamUint _ := .ok pVer

theorem decodes (allp : StrmanAllPeers) : env.decodeAllPeers (textOf allp) = .ok allp := by
  simp only [env, valueOf_textOf]

def oldAddress : TCPAddr := ⟨.v4 [10, 0, 0, 2], 40002, [], by decide⟩

def newAddress : TCPAddr := ⟨0x20010db8000000000000000000000002, 40002, [], by decide⟩

/-- The leader is connected to node 2, which has told its port, and to node 3. -/
def leader (address : TCPAddr) : Storeman :=
  { new 1 [1, 2, 3] [1, 2, 3] with
    peers := [(2, ⟨2, address.string⟩), (3, ⟨3, oldAddress.string⟩)]
    peersPort := [(2, utf8 "17717")] }

def follower : Storeman := new 3 [1, 2, 3] [1, 2, 3]

def remote (address : TCPAddr) (peer : Peer) : TCPAddr :=
  if peer.remoteAddress = address.string then address else oldAddress

theorem connected (address : TCPAddr) : ∀ entry ∈ (leader address).peers,
    entry.2.remoteAddress = (remote address entry.2).string := by
  intro entry member
  rcases List.mem_pair.mp member with rfl | rfl
  · rw [remote, if_pos rfl]
  · rw [remote]
    split
    next same => exact same
    next => rfl

theorem address_book_arrives_iff_old : BookArrives env urls textOf (leader oldAddress) follower 1
    (remote oldAddress) 3 (utf8 "17717") (leader oldAddress).peers := by
  refine (address_book_arrives_iff env urls laws (fun _ => rfl) (fun _ => rfl) textOf decodes
    (leader oldAddress) follower 1 rfl rfl (remote oldAddress) (connected oldAddress) 3
    (utf8 "17717") _ (.refl _)).1.mpr ?_
  intro entry member _ _ other
  rcases List.mem_pair.mp member with rfl | rfl
  · exact ⟨by decide +kernel, 17717, by decide, by decide +kernel⟩
  · exact absurd rfl other

/-- The follower is told a bracket and the first group, and leaves the leader; and a port without an
id ends its process. -/
theorem new_address_is_cut :
    (leader newAddress).peersReply env 3 (utf8 "17717") (leader newAddress).peers =
        .ok ⟨[utf8 "[2001", utf8 "10.0.0.2"], [utf8 "17717", utf8 "17717"],
          [idString 2, idString 3]⟩ ∧
      follower.answered env urls textOf ⟨[utf8 "[2001", utf8 "10.0.0.2"],
          [utf8 "17717", utf8 "17717"], [idString 2, idString 3]⟩ =
        ([], .returns (.new (utf8 "missing ']' in host"))) ∧
      ¬BookArrives env urls textOf (leader newAddress) follower 1 (remote newAddress) 3
        (utf8 "17717") (leader newAddress).peers ∧
      (follower.allPeersNodes env urls (textOf (StrmanAllPeers.mk [] [utf8 "17717"] []))).2 =
        .panics := by
  have built : (leader newAddress).peersReply env 3 (utf8 "17717") (leader newAddress).peers =
      .ok ⟨[utf8 "[2001", utf8 "10.0.0.2"], [utf8 "17717", utf8 "17717"],
        [idString 2, idString 3]⟩ := by
    decide +kernel
  have hears : follower.answered env urls textOf ⟨[utf8 "[2001", utf8 "10.0.0.2"],
      [utf8 "17717", utf8 "17717"], [idString 2, idString 3]⟩ =
      ([], .returns (.new (utf8 "missing ']' in host"))) := by
    rw [answered, if_neg (by simp), allPeersNodes, decodes]
    decide +kernel
  refine ⟨built, hears, ?_, ?_⟩
  · rintro ⟨allp, nodes, built', hears', -⟩
    cases built.symm.trans built'
    cases hears.symm.trans hears'
  · rw [allPeersNodes, decodes]
    decide +kernel

end BookSample
end SchnorrMpc
