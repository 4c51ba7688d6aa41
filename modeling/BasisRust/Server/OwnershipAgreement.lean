import BasisRust.Library.Announce
import BasisRust.Library.Queues
import BasisRust.Library.Run
import BasisRust.Server.Stores

/-!
# Who owns what, as the clients are told

The handlers of the three ownership channels and the part of `handle_disconnect` that gives up the
ownerships of a leaver.  Each of them changes the ownership map in one step, under its lock, and
queues the announcements afterwards, one client at a time, while other handlers run.

A broadcast goes through the authenticated peers.  Everybody who was there when it began and has
stayed is visited once (`waiting` are those still to come); a peer that was admitted meanwhile may
be visited or not.  A departure waits until no handler of its session runs.

`throughout` are the clients of the initial state that have not begun to leave, `changes` the ids
whose entry has changed, in order, and `told` all announcements in the order in which they were
queued.  All three are history; the version of a notice is the number of changes of its id so far.
-/

namespace BasisRust.Server

open Library

inductive OwnershipChannel where
  | getCurrentOwner
  | changeCurrentOwner
  | removeCurrentOwner
  deriving DecidableEq

/-- An `OwnershipTransferMessage` to a client. -/
structure OwnershipNotice where
  channel : OwnershipChannel
  playerId : PeerId
  ownershipId : String
  version : ℕ
  deriving DecidableEq

namespace OwnershipNotice

/-- The owner a client takes from the message. -/
def names (m : OwnershipNotice) : Option PeerId :=
  match m.channel with
  | .removeCurrentOwner => none
  | .getCurrentOwner | .changeCurrentOwner => some m.playerId

def note (m : OwnershipNotice) : Note String PeerId := ⟨m.ownershipId, m.names, m.version⟩

end OwnershipNotice

/-- The clients a message is for: one of them, or all but the excepted one. -/
inductive Audience where
  | one (peer : PeerId)
  | everyone (except : Option PeerId)
  deriving DecidableEq

namespace Audience

def includes : Audience → PeerId → Bool
  | one peer, c => c = peer
  | everyone except, c => some c ≠ except

def among (members : List PeerId) : Audience → List PeerId
  | one peer => [peer]
  | everyone except => members.filter fun c => some c ≠ except

end Audience

/-- A handler that has changed the map and is queueing its announcements, the first of `notices` at
present. -/
structure Announcing where
  session : PeerSession
  audience : Audience
  notices : List OwnershipNotice
  waiting : List PeerId
  visited : List PeerId
  deriving DecidableEq

/-- What the handler has still to queue to a client. -/
def Announcing.owedTo (t : Announcing) (c : PeerId) : List OwnershipNotice :=
  match t.notices with
  | [] => []
  | m :: rest => (if c ∈ t.waiting then [m] else []) ++ if t.audience.includes c then rest else []

/-- After a client was visited. -/
def Announcing.visit (t : Announcing) (c : PeerId) : Announcing :=
  { t with waiting := t.waiting.filter fun d => d ≠ c, visited := c :: t.visited }

structure OwnershipServer where
  members : List PeerId
  departing : List PeerId
  ownership : OwnershipState
  announcing : List Announcing
  throughout : List PeerId
  changes : List String
  told : List (PeerId × OwnershipNotice)
  deriving DecidableEq

namespace OwnershipServer

def ownerOf (s : OwnershipServer) (object : String) : Option PeerId :=
  (assocGet object s.ownership.byObject).map Ownership.owner

/-- How often the entry of an id has changed. -/
def version (s : OwnershipServer) (object : String) : ℕ := s.changes.count object

/-- The ownership messages queued to a client, in order. -/
def queueOf (s : OwnershipServer) (c : PeerId) : List OwnershipNotice := onKey c s.told

inductive Action where
  | admission (peer : PeerId)
  | getCurrentOwner (session : PeerSession) (object : String)
  | changeCurrentOwner (session : PeerSession) (object : String)
  | removeCurrentOwner (session : PeerSession) (object : String) (playerId : PeerId)
  | handleDisconnect (session : PeerSession)
  | queueTo (task : ℕ) (c : PeerId)
  | endBroadcast (task : ℕ)
  | leave (peer : PeerId)
  deriving DecidableEq

/-- A message of the session is handled. -/
def handles (s : OwnershipServer) (session : PeerSession) : Bool :=
  session.peer ∈ s.members && session.peer ∉ s.departing

def announce (s : OwnershipServer) (session : PeerSession) (audience : Audience)
    (notices : List OwnershipNotice) : OwnershipServer :=
  { s with announcing := s.announcing ++
    [⟨session, audience, notices, audience.among s.members, []⟩] }

def getCurrentOwner (s : OwnershipServer) (session : PeerSession) (object : String) :
    OwnershipServer :=
  let r := s.ownership.requestNewOrExisting object session
  let s : OwnershipServer := { s with
    ownership := r.2
    changes := if (s.ownerOf object).isNone then s.changes ++ [object] else s.changes }
  s.announce session (.one session.peer) [⟨.getCurrentOwner, r.1, object, s.version object⟩]

def changeCurrentOwner (s : OwnershipServer) (session : PeerSession) (object : String) :
    OwnershipServer :=
  let r := s.ownership.switchOwnership object session
  let s : OwnershipServer := { s with ownership := r.2, changes := s.changes ++ [object] }
  s.announce session (.everyone none) [⟨.changeCurrentOwner, r.1, object, s.version object⟩]

/-- The message that is passed on is the one that came in, with whatever player it names. -/
def removeCurrentOwner (s : OwnershipServer) (session : PeerSession) (object : String)
    (playerId : PeerId) : OwnershipServer :=
  match s.ownership.removeIfOwner object session.peer with
  | (false, _) => s
  | (true, ownership) =>
    let s : OwnershipServer := { s with ownership, changes := s.changes ++ [object] }
    s.announce session (.everyone none) [⟨.removeCurrentOwner, playerId, object, s.version object⟩]

/-- The ownership part of `handle_disconnect`. -/
def handleDisconnect (s : OwnershipServer) (session : PeerSession) : OwnershipServer :=
  let r := s.ownership.removePlayer session.peer
  let s : OwnershipServer := { s with
    ownership := r.2
    changes := s.changes ++ r.1
    departing := session.peer :: s.departing
    throughout := s.throughout.filter fun c => c ≠ session.peer }
  s.announce session (.everyone (some session.peer))
    (r.1.map fun object => ⟨.removeCurrentOwner, session.peer, object, s.version object⟩)

def queueTo (s : OwnershipServer) (task : ℕ) (c : PeerId) : Option OwnershipServer :=
  match s.announcing[task]? with
  | none => none
  | some t =>
    match t.notices with
    | [] => none
    | m :: _ =>
      if t.audience.includes c && (c ∈ t.waiting || c ∈ s.members) && c ∉ t.visited then
        some { s with
          announcing := s.announcing.set task (t.visit c)
          told := s.told ++ [(c, m)] }
      else none

/-- A broadcast has visited everybody; the handler goes on with its next message or is done. -/
def endBroadcast (s : OwnershipServer) (task : ℕ) : Option OwnershipServer :=
  match s.announcing[task]? with
  | none => none
  | some t =>
    if t.waiting ≠ [] && t.notices ≠ [] then none
    else
      match t.notices with
      | _ :: m :: rest =>
        some { s with
          announcing := s.announcing.set task
            { t with notices := m :: rest, waiting := t.audience.among s.members, visited := [] } }
      | _ => some { s with announcing := s.announcing.eraseIdx task }

def step (s : OwnershipServer) : Action → Option OwnershipServer
  | .admission peer =>
    if peer ∈ s.members ∨ peer ∈ s.departing then none
    else some { s with members := s.members ++ [peer] }
  | .getCurrentOwner session object =>
    if s.handles session then some (s.getCurrentOwner session object) else none
  | .changeCurrentOwner session object =>
    if s.handles session then some (s.changeCurrentOwner session object) else none
  | .removeCurrentOwner session object playerId =>
    if s.handles session then some (s.removeCurrentOwner session object playerId) else none
  -- the departure waits for the leases of the session's handlers
  | .handleDisconnect session =>
    if session.peer ∈ s.departing ∨ s.announcing.any fun t => t.session = session then none
    else some (s.handleDisconnect session)
  | .queueTo task c => s.queueTo task c
  | .endBroadcast task => s.endBroadcast task
  | .leave peer =>
    if peer ∉ s.departing ∨ s.announcing.any fun t => t.session.peer = peer then none
    else some { s with
      members := s.members.filter fun c => c ≠ peer
      departing := s.departing.filter fun c => c ≠ peer
      announcing := s.announcing.map fun t =>
        { t with waiting := t.waiting.filter fun c => c ≠ peer } }

/-- A server with any clients and any ownerships, before the first message. -/
def system : System OwnershipServer Action where
  init s := AssocNodup s.ownership.byObject ∧ s.departing = [] ∧ s.announcing = [] ∧
    s.changes = [] ∧ s.told = [] ∧ s.throughout = s.members
  step := step

/-- The client has been or will be told something about the id. -/
def hears (s : OwnershipServer) (c : PeerId) (object : String) : Bool :=
  (s.queueOf c).any (fun m => m.ownershipId = object) ||
    s.announcing.any fun t => (t.owedTo c).any fun m => m.ownershipId = object

/-- No announcement is queued to a client behind one about a later change of the same id, and no
request makes an owner of an id of which a client other than the requester has heard. -/
def Orderly (s : OwnershipServer) : Action → Prop
  | .queueTo task c => c ∈ s.throughout → ∀ t ∈ s.announcing[task]?, ∀ m ∈ t.notices.head?,
      ∀ x ∈ s.queueOf c, x.ownershipId = m.ownershipId → x.version ≤ m.version
  | .getCurrentOwner session object => s.ownerOf object = none →
      ∀ c ∈ s.throughout, c ≠ session.peer → s.hears c object = false
  | _ => True

instance (s : OwnershipServer) : ∀ a, Decidable (Orderly s a)
  | .queueTo task c => inferInstanceAs (Decidable (c ∈ s.throughout →
      ∀ t ∈ s.announcing[task]?, ∀ m ∈ t.notices.head?,
        ∀ x ∈ s.queueOf c, x.ownershipId = m.ownershipId → x.version ≤ m.version))
  | .getCurrentOwner session object => inferInstanceAs (Decidable (s.ownerOf object = none →
      ∀ c ∈ s.throughout, c ≠ session.peer → s.hears c object = false))
  | .admission _ | .changeCurrentOwner _ _ | .removeCurrentOwner _ _ _ | .handleDisconnect _
  | .endBroadcast _ | .leave _ => .isTrue trivial

/-! ### What a client is owed -/

/-- The notes a client has still to get. -/
def owes (s : OwnershipServer) (c : PeerId) (n : Note String PeerId) : Prop :=
  ∃ t ∈ s.announcing, ∃ m ∈ t.owedTo c, m.note = n

variable {s s' : OwnershipServer} {a : Action} {c : PeerId} {session : PeerSession}
  {object : String} {task : ℕ} {members : List PeerId} {peer : PeerId} {t : Announcing}

variable {audience : Audience}

theorem mem_among (hc : c ∈ members) : c ∈ audience.among members ↔ audience.includes c = true := by
  cases audience with
  | one peer => simp [Audience.among, Audience.includes]
  | everyone except => simp [Audience.among, Audience.includes, hc]

theorem includes_of_mem_among (hc : c ∈ audience.among members) : audience.includes c = true := by
  cases audience with
  | one peer => simpa [Audience.among, Audience.includes] using hc
  | everyone except => exact (List.mem_filter.mp hc).2

variable {notices : List OwnershipNotice}

theorem owedTo_begin (hc : c ∈ members) :
    Announcing.owedTo ⟨session, audience, notices, audience.among members, []⟩ c =
      if audience.includes c then notices else [] := by
  cases notices with
  | nil => simp [Announcing.owedTo]
  | cons m rest =>
    simp only [Announcing.owedTo, mem_among hc]
    split <;> rfl

theorem owes_announce (hc : c ∈ s.members) (n : Note String PeerId) :
    (s.announce session audience notices).owes c n ↔
      s.owes c n ∨ audience.includes c = true ∧ ∃ m ∈ notices, m.note = n := by
  show (∃ t ∈ s.announcing ++ [_], _) ↔ _
  simp only [List.mem_append, List.mem_singleton, or_and_right, exists_or, exists_eq_left,
    owedTo_begin hc]
  apply or_congr Iff.rfl
  by_cases hin : audience.includes c = true
  · simp [hin]
  · simp [hin]

/-! ### The invariant -/

structure AgreeInv (s : OwnershipServer) : Prop where
  nodup : AssocNodup s.ownership.byObject
  present : ∀ c ∈ s.throughout, c ∈ s.members ∧ c ∉ s.departing
  visits : ∀ t ∈ s.announcing, ∀ c ∈ s.throughout,
    t.audience.includes c = true → c ∈ t.waiting ∨ c ∈ t.visited
  waits : ∀ t ∈ s.announcing, ∀ c ∈ t.waiting, c ∉ t.visited ∧ t.audience.includes c = true
  informed : ∀ c ∈ s.throughout,
    Informed s.ownerOf s.version ((s.queueOf c).map OwnershipNotice.note) (s.owes c)

/-- A new announcement keeps everything but the accounts of what was changed and told. -/
theorem AgreeInv.announce (hinv : AgreeInv s) {ownership : OwnershipState} {changes : List String}
    (hnodup : AssocNodup ownership.byObject) (hinformed : ∀ c ∈ s.throughout,
      let s₁ : OwnershipServer := { s with ownership, changes }
      Informed s₁.ownerOf s₁.version ((s.queueOf c).map OwnershipNotice.note) fun n =>
        s.owes c n ∨ audience.includes c = true ∧ ∃ m ∈ notices, m.note = n) :
    AgreeInv (announce { s with ownership, changes } session audience notices) where
  nodup := hnodup
  present := hinv.present
  visits := by
    intro t ht c hc hin
    rcases List.mem_append.mp ht with ht | ht
    · exact hinv.visits t ht c hc hin
    · rw [List.mem_singleton.mp ht] at hin ⊢
      exact .inl ((mem_among (hinv.present c hc).1).mpr hin)
  waits := by
    intro t ht c hc
    rcases List.mem_append.mp ht with ht | ht
    · exact hinv.waits t ht c hc
    · rw [List.mem_singleton.mp ht] at hc ⊢
      exact ⟨List.not_mem_nil, includes_of_mem_among hc⟩
  informed := by
    intro c hc
    refine (hinformed c hc).congr ?_
    intro n
    exact owes_announce (hinv.present c hc).1 n

/-! ### The handlers -/

/-- One id changes hands.  A client that is not told must never have heard of it. -/
theorem informed_change {ownership : OwnershipState} {m : OwnershipNotice} {included : Bool}
    {log : List (Note String PeerId)} {owed : Note String PeerId → Prop}
    (h : Informed s.ownerOf s.version log owed) (hother : ∀ k, k ≠ object →
      assocGet k ownership.byObject = assocGet k s.ownership.byObject)
    (hnote : m.note = ⟨object, (assocGet object ownership.byObject).map Ownership.owner,
      (s.changes ++ [object]).count object⟩)
    (hheard : included = true ∨ ∀ n, n ∈ log ∨ owed n → n.key ≠ object) :
    let s₁ : OwnershipServer := { s with ownership, changes := s.changes ++ [object] }
    Informed s₁.ownerOf s₁.version log fun n =>
      owed n ∨ included = true ∧ ∃ m' ∈ [m], m'.note = n := by
  intro s₁
  have hversion : ∀ k, s₁.version k = s.version k + if object = k then 1 else 0 :=
    count_change s.changes object
  refine h.changes (fun n => included = true ∧ ∃ m' ∈ [m], m'.note = n) ?_ ?_ ?_
    (fun _ => Iff.rfl)
  · intro k
    by_cases hk : object = k
    · right
      rw [hversion, if_pos hk]
      exact Nat.lt_succ_self _
    · left
      refine ⟨by rw [hversion, if_neg hk]; rfl, ?_⟩
      show (assocGet k ownership.byObject).map _ = _
      rw [hother k (Ne.symm hk)]
      rfl
  · intro n hn
    obtain ⟨-, m', hm', rfl⟩ := hn
    rw [List.mem_singleton.mp hm', hnote]
    exact ⟨rfl, rfl⟩
  · intro k hk
    have hk : object = k := by
      by_contra hne
      rw [hversion, if_neg hne] at hk
      exact absurd hk (Nat.lt_irrefl _)
    rcases hheard with hin | hnever
    · exact .inl ⟨m.note, ⟨hin, m, List.mem_singleton_self m, rfl⟩, by rw [hnote, hk]⟩
    · exact .inr (hk ▸ hnever)

theorem AgreeInv.changeCurrentOwner (hinv : AgreeInv s) (session : PeerSession)
    (object : String) : AgreeInv (s.changeCurrentOwner session object) := by
  refine hinv.announce ?_ ?_
  · exact hinv.nodup.put object (some ⟨session.peer, session⟩)
  · intro c hc
    refine informed_change (hinv.informed c hc) ?_ ?_ (.inl rfl)
    · intro k hk
      exact assocGet_set_of_ne hk _ _
    · show (⟨object, some session.peer, _⟩ : Note String PeerId) = _
      rw [show assocGet object (s.ownership.switchOwnership object session).2.byObject =
        some ⟨session.peer, session⟩ from assocGet_set_self _ _ _]
      rfl

theorem AgreeInv.removeCurrentOwner (hinv : AgreeInv s) (session : PeerSession)
    (object : String) (playerId : PeerId) :
    AgreeInv (s.removeCurrentOwner session object playerId) := by
  unfold OwnershipServer.removeCurrentOwner OwnershipState.removeIfOwner
  by_cases howner : ((assocGet object s.ownership.byObject).any fun ownership =>
      ownership.owner = session.peer) = true
  · rw [if_pos howner]
    refine hinv.announce (hinv.nodup.erase object) ?_
    intro c hc
    refine informed_change (hinv.informed c hc) ?_ ?_ (.inl rfl)
    · intro k hk
      exact assocGet_erase_of_ne hk _
    · show (⟨object, none, _⟩ : Note String PeerId) = _
      rw [assocGet_erase_self]
      rfl
  · rw [if_neg howner]
    exact hinv

/-- A client of which `hears` is false has no note about the id. -/
theorem never_heard (h : s.hears c object = false) (n : Note String PeerId)
    (hn : n ∈ (s.queueOf c).map OwnershipNotice.note ∨ s.owes c n) : n.key ≠ object := by
  simp only [hears, Bool.or_eq_false_iff, List.any_eq_false, decide_eq_true_eq] at h
  rcases hn with hn | ⟨t, ht, m, hm, rfl⟩
  · obtain ⟨m, hm, rfl⟩ := List.mem_map.mp hn
    exact h.1 m hm
  · have := h.2 t ht
    rw [Bool.not_eq_true, List.any_eq_false] at this
    have hne : ¬m.ownershipId = object := by simpa using this m hm
    exact hne

theorem AgreeInv.getCurrentOwner (hinv : AgreeInv s)
    (hok : Orderly s (.getCurrentOwner session object)) :
    AgreeInv (s.getCurrentOwner session object) := by
  unfold OwnershipServer.getCurrentOwner OwnershipState.requestNewOrExisting
  cases hget : assocGet object s.ownership.byObject with
  | none =>
    have hnone : s.ownerOf object = none := by
      rw [ownerOf, hget]
      rfl
    simp only [hnone, Option.isNone_none, if_true]
    refine hinv.announce (hinv.nodup.put object (some ⟨session.peer, session⟩)) ?_
    intro c hc
    refine informed_change (hinv.informed c hc) ?_ ?_ ?_
    · intro k hk
      exact assocGet_set_of_ne hk _ _
    · show (⟨object, some session.peer, _⟩ : Note String PeerId) = _
      rw [assocGet_set_self]
      rfl
    · by_cases hself : c = session.peer
      · exact .inl (decide_eq_true hself)
      · exact .inr (never_heard (hok hnone c hc hself))
  | some ownership =>
    have hsome : s.ownerOf object = some ownership.owner := by
      rw [ownerOf, hget]
      rfl
    simp only [hsome, Option.isNone_some, Bool.false_eq_true, if_false]
    refine hinv.announce hinv.nodup ?_
    intro c hc
    refine (hinv.informed c hc).changes _ (fun k => .inl ⟨rfl, rfl⟩) ?_
      (fun k hk => absurd hk (Nat.lt_irrefl _)) (fun _ => Iff.rfl)
    intro n hn
    obtain ⟨-, m', hm', rfl⟩ := hn
    rw [List.mem_singleton.mp hm']
    exact ⟨rfl, hsome.symm⟩

theorem mem_removePlayer {st : OwnershipState} (hnodup : AssocNodup st.byObject) {k : String} :
    k ∈ (st.removePlayer peer).1 ↔
      (assocGet k st.byObject).map Ownership.owner = some peer := by
  simp only [OwnershipState.removePlayer, List.mem_map, List.mem_filter, decide_eq_true_eq,
    Option.map_eq_some_iff]
  constructor
  · rintro ⟨⟨k', x⟩, ⟨hmem, howner⟩, rfl⟩
    exact ⟨x, hnodup.get_of_mem hmem, howner⟩
  · rintro ⟨x, hget, howner⟩
    exact ⟨(k, x), ⟨mem_keys_of_assocGet hget, howner⟩, rfl⟩

theorem ownerOf_removePlayer {st : OwnershipState} (hnodup : AssocNodup st.byObject) {k : String} :
    assocGet k (st.removePlayer peer).2.byObject =
      (assocGet k st.byObject).filter fun x => x.owner ≠ peer :=
  hnodup.get_filter (fun x => decide (x.owner ≠ peer)) k

theorem AgreeInv.handleDisconnect (hinv : AgreeInv s) (session : PeerSession) :
    AgreeInv (s.handleDisconnect session) := by
  -- the leaver is no longer among the clients that have been there throughout
  let s₀ : OwnershipServer := { s with
    departing := session.peer :: s.departing
    throughout := s.throughout.filter fun c => c ≠ session.peer }
  have hsub : ∀ c ∈ s₀.throughout, c ∈ s.throughout ∧ c ≠ session.peer := by
    intro c hc
    obtain ⟨hmem, hne⟩ := List.mem_filter.mp hc
    exact ⟨hmem, of_decide_eq_true hne⟩
  have hinv₀ : AgreeInv s₀ := by
    refine ⟨hinv.nodup, ?_, ?_, hinv.waits, ?_⟩
    · intro c hc
      obtain ⟨hmem, hne⟩ := hsub c hc
      exact ⟨(hinv.present c hmem).1,
        List.not_mem_cons_of_ne_of_not_mem hne (hinv.present c hmem).2⟩
    · intro t ht c hc
      exact hinv.visits t ht c (hsub c hc).1
    · intro c hc
      exact hinv.informed c (hsub c hc).1
  refine hinv₀.announce ?_ ?_
  · exact hinv.nodup.sublist (List.filter_sublist.map Prod.fst)
  intro c hc s₁
  have hversion : ∀ k, s₁.version k = s.version k +
      (s.ownership.removePlayer session.peer).1.count k := fun k => List.count_append
  have hmem : ∀ k, k ∈ (s.ownership.removePlayer session.peer).1 ↔
      s.ownerOf k = some session.peer := fun k => mem_removePlayer hinv.nodup
  have hafter : ∀ k, s₁.ownerOf k =
      ((assocGet k s.ownership.byObject).filter fun x => decide (x.owner ≠ session.peer)).map
        Ownership.owner := fun k => congrArg _ (ownerOf_removePlayer hinv.nodup)
  have hin : Audience.includes (.everyone (some session.peer)) c = true :=
    decide_eq_true fun h => (hsub c hc).2 (Option.some.inj h)
  refine (hinv₀.informed c hc).changes _ ?_ ?_ ?_ (fun _ => Iff.rfl)
  · intro k
    by_cases hk : s.ownerOf k = some session.peer
    · right
      rw [hversion]
      exact Nat.lt_add_of_pos_right (List.count_pos_iff.mpr ((hmem k).mpr hk))
    · left
      refine ⟨by rw [hversion, List.count_eq_zero.mpr (mt (hmem k).mp hk)]; rfl, ?_⟩
      show s₁.ownerOf k = s.ownerOf k
      rw [hafter, ownerOf] at *
      cases hget : assocGet k s.ownership.byObject with
      | none => rfl
      | some x =>
        rw [hget] at hk
        have hne : x.owner ≠ session.peer := fun h => hk (congrArg some h)
        rw [Option.filter_some, if_pos (decide_eq_true hne)]
  · intro n hn
    obtain ⟨-, m, hm, rfl⟩ := hn
    obtain ⟨k, hk, rfl⟩ := List.mem_map.mp hm
    refine ⟨rfl, ?_⟩
    show none = s₁.ownerOf k
    have howner := (hmem k).mp hk
    rw [ownerOf] at howner
    obtain ⟨x, hget, hx⟩ := Option.map_eq_some_iff.mp howner
    rw [hafter, hget, Option.filter_some, if_neg (by simp [hx])]
    rfl
  · intro k hk
    left
    have hpos : 0 < (s.ownership.removePlayer session.peer).1.count k := by
      rw [hversion] at hk
      exact Nat.pos_of_lt_add_right hk
    exact ⟨_, ⟨hin, _, List.mem_map_of_mem (List.count_pos_iff.mp hpos), rfl⟩, rfl⟩

/-! ### The announcements -/

/-- A handler that owes a client the same as before is replaced or removed. -/
theorem owes_congr {announcing : List Announcing}
    (hrest : ∀ x ∈ s.announcing, x ∈ announcing ∨ x = t)
    (hback : ∀ x ∈ announcing, x ∈ s.announcing ∨ ∀ m ∈ x.owedTo c, m ∈ t.owedTo c)
    (ht : t ∈ s.announcing) (hkeeps : ∀ m ∈ t.owedTo c, ∃ x ∈ announcing, m ∈ x.owedTo c)
    (n : Note String PeerId) : ({ s with announcing } : OwnershipServer).owes c n ↔ s.owes c n := by
  constructor
  · rintro ⟨x, hx, m, hm, rfl⟩
    rcases hback x hx with hx | hsub
    · exact ⟨x, hx, m, hm, rfl⟩
    · exact ⟨t, ht, m, hsub m hm, rfl⟩
  · rintro ⟨x, hx, m, hm, rfl⟩
    rcases hrest x hx with hx | rfl
    · exact ⟨x, hx, m, hm, rfl⟩
    · obtain ⟨y, hy, hmem⟩ := hkeeps m hm
      exact ⟨y, hy, m, hmem, rfl⟩

theorem owes_set_congr {t' : Announcing} (ht : s.announcing[task]? = some t)
    (hsame : t'.owedTo c = t.owedTo c) (n : Note String PeerId) :
    ({ s with announcing := s.announcing.set task t' } : OwnershipServer).owes c n ↔
      s.owes c n := by
  obtain ⟨hlt, -⟩ := List.getElem?_eq_some_iff.mp ht
  refine owes_congr (fun x hx => mem_set_or_eq ht hx) ?_ (List.mem_of_getElem? ht) ?_ n
  · intro x hx
    rcases List.mem_or_eq_of_mem_set hx with hx | rfl
    · exact .inl hx
    · exact .inr fun m hm => hsame ▸ hm
  · intro m hm
    exact ⟨t', List.mem_set hlt _, hsame ▸ hm⟩

theorem owedTo_visit_of_ne {d : PeerId} (hne : d ≠ c) : (t.visit c).owedTo d = t.owedTo d := by
  have hwait : d ∈ (t.visit c).waiting ↔ d ∈ t.waiting := by
    simp [Announcing.visit, hne]
  unfold Announcing.owedTo
  show (match t.notices with | [] => [] | m :: rest => _) = _
  cases t.notices with
  | nil => rfl
  | cons m rest =>
    show (if d ∈ (t.visit c).waiting then [m] else []) ++
      (if t.audience.includes d then rest else []) = _
    simp only [hwait]

theorem owedTo_visit_self {m : OwnershipNotice} {rest : List OwnershipNotice}
    (hnotices : t.notices = m :: rest) (hc : c ∈ t.waiting) :
    t.owedTo c = m :: (t.visit c).owedTo c := by
  have hwait : c ∉ (t.visit c).waiting := by simp [Announcing.visit]
  have hsame : (t.visit c).notices = m :: rest := hnotices
  simp only [Announcing.owedTo, hnotices, hsame, if_pos hc, if_neg hwait, List.nil_append,
    List.singleton_append]
  rfl

theorem AgreeInv.queueTo (hinv : AgreeInv s) (hok : Orderly s (.queueTo task c))
    (hstep : s.queueTo task c = some s') : AgreeInv s' := by
  unfold OwnershipServer.queueTo at hstep
  cases ht : s.announcing[task]? with
  | none => simp [ht] at hstep
  | some t =>
    cases hnotices : t.notices with
    | nil => simp [ht, hnotices] at hstep
    | cons m rest =>
      simp only [ht, hnotices] at hstep
      split at hstep
      swap
      · cases hstep
      rename_i hguard
      cases hstep
      have htask : t ∈ s.announcing := List.mem_of_getElem? ht
      obtain ⟨hlt, -⟩ := List.getElem?_eq_some_iff.mp ht
      simp only [Bool.and_eq_true, decide_eq_true_eq] at hguard
      obtain ⟨⟨hin, -⟩, hvisited⟩ := hguard
      refine ⟨hinv.nodup, hinv.present, ?_, ?_, ?_⟩
      · intro x hx d hd hdin
        rcases List.mem_or_eq_of_mem_set hx with hx | rfl
        · exact hinv.visits x hx d hd hdin
        · rcases hinv.visits t htask d hd hdin with hwait | hwas
          · by_cases hdc : d = c
            · exact .inr (hdc ▸ .head _)
            · exact .inl (List.mem_filter.mpr ⟨hwait, decide_eq_true hdc⟩)
          · exact .inr (.tail _ hwas)
      · intro x hx d hd
        rcases List.mem_or_eq_of_mem_set hx with hx | rfl
        · exact hinv.waits x hx d hd
        · obtain ⟨hwait, hne⟩ := List.mem_filter.mp hd
          obtain ⟨hnot, hdin⟩ := hinv.waits t htask d hwait
          exact ⟨List.not_mem_cons_of_ne_of_not_mem (of_decide_eq_true hne) hnot, hdin⟩
      · intro d hd
        by_cases hdc : d = c
        · subst hdc
          have hwait : d ∈ t.waiting := (hinv.visits t htask d hd hin).resolve_right hvisited
          have howed := owedTo_visit_self hnotices hwait
          have hqueue : onKey d (s.told ++ [(d, m)]) = s.queueOf d ++ [m] := by
            rw [onKey_append, onKey_cons_self, onKey_nil]
            rfl
          show Informed _ _ ((onKey d (s.told ++ [(d, m)])).map _) _
          rw [hqueue, List.map_append]
          refine (hinv.informed d hd).emit ?_ ?_ ?_ ?_
          · exact ⟨t, htask, m, howed ▸ .head _, rfl⟩
          · rintro n ⟨x, hx, y, hy, rfl⟩
            rcases List.mem_or_eq_of_mem_set hx with hx | rfl
            · exact ⟨x, hx, y, hy, rfl⟩
            · exact ⟨t, htask, y, howed ▸ .tail _ hy, rfl⟩
          · rintro n ⟨x, hx, y, hy, rfl⟩
            rcases mem_set_or_eq ht hx with hx | rfl
            · exact .inr ⟨x, hx, y, hy, rfl⟩
            · rw [howed] at hy
              rcases List.mem_cons.mp hy with rfl | hy
              · exact .inl rfl
              · exact .inr ⟨_, List.mem_set hlt _, y, hy, rfl⟩
          · intro n hn hkey
            obtain ⟨y, hy, rfl⟩ := List.mem_map.mp hn
            exact hok hd t ht m (by rw [hnotices]; rfl) y hy hkey
        · have hqueue : onKey d (s.told ++ [(c, m)]) = s.queueOf d := by
            rw [onKey_append, onKey_cons_of_ne (Ne.symm hdc), onKey_nil, List.append_nil]
            rfl
          show Informed _ _ ((onKey d (s.told ++ [(c, m)])).map _) _
          rw [hqueue]
          exact (hinv.informed d hd).congr fun n =>
            owes_set_congr ht (owedTo_visit_of_ne hdc) n

/-- With nobody waiting, the first notice is out; without notices there is nothing to queue. -/
theorem owedTo_ended (hended : ¬(t.waiting ≠ [] ∧ t.notices ≠ [])) :
    t.owedTo c = if t.audience.includes c then t.notices.tail else [] := by
  unfold Announcing.owedTo
  cases hnotices : t.notices with
  | nil => simp
  | cons m rest =>
    have hwaiting : t.waiting = [] := by
      by_contra hne
      exact hended ⟨hne, by simp [hnotices]⟩
    simp [hwaiting]

theorem AgreeInv.endBroadcast (hinv : AgreeInv s) (hstep : s.endBroadcast task = some s') :
    AgreeInv s' := by
  unfold OwnershipServer.endBroadcast at hstep
  cases ht : s.announcing[task]? with
  | none => simp [ht] at hstep
  | some t =>
    simp only [ht] at hstep
    split at hstep
    · cases hstep
    rename_i hended
    simp only [Bool.and_eq_true, decide_eq_true_eq] at hended
    have htask : t ∈ s.announcing := List.mem_of_getElem? ht
    split at hstep
    · rename_i first m rest hnotices
      cases hstep
      refine ⟨hinv.nodup, hinv.present, ?_, ?_, ?_⟩
      · intro x hx d hd hin
        rcases List.mem_or_eq_of_mem_set hx with hx | rfl
        · exact hinv.visits x hx d hd hin
        · exact .inl ((mem_among (hinv.present d hd).1).mpr hin)
      · intro x hx d hd
        rcases List.mem_or_eq_of_mem_set hx with hx | rfl
        · exact hinv.waits x hx d hd
        · exact ⟨List.not_mem_nil, includes_of_mem_among hd⟩
      · intro d hd
        refine (hinv.informed d hd).congr fun n => owes_set_congr ht ?_ n
        have hmembers : d ∈ s.members := (hinv.present d hd).1
        rw [owedTo_ended hended, hnotices]
        exact owedTo_begin hmembers
    · rename_i hlast
      cases hstep
      have htail : t.notices.tail = [] := by
        cases hnotices : t.notices with
        | nil => rfl
        | cons first rest =>
          cases rest with
          | nil => rfl
          | cons m rest => exact absurd hnotices (hlast first m rest)
      have hsub : ∀ x ∈ s.announcing.eraseIdx task, x ∈ s.announcing :=
        fun x hx => List.mem_of_mem_eraseIdx hx
      refine ⟨hinv.nodup, hinv.present, ?_, ?_, ?_⟩
      · intro x hx
        exact hinv.visits x (hsub x hx)
      · intro x hx
        exact hinv.waits x (hsub x hx)
      · intro d hd
        refine (hinv.informed d hd).congr fun n =>
          owes_congr (fun x hx => mem_eraseIdx_or_eq ht hx) (fun x hx => .inl (hsub x hx)) htask
            ?_ n
        intro m hm
        rw [owedTo_ended hended, htail] at hm
        simp at hm

theorem AgreeInv.leave (hinv : AgreeInv s) (hpeer : peer ∈ s.departing) : AgreeInv { s with
      members := s.members.filter fun c => c ≠ peer
      departing := s.departing.filter fun c => c ≠ peer
      announcing := s.announcing.map fun t =>
        { t with waiting := t.waiting.filter fun c => c ≠ peer } } := by
  have hne : ∀ c ∈ s.throughout, c ≠ peer := by
    intro c hc heq
    exact (hinv.present c hc).2 (heq ▸ hpeer)
  refine ⟨hinv.nodup, ?_, ?_, ?_, ?_⟩
  · intro c hc
    obtain ⟨hmem, hdep⟩ := hinv.present c hc
    exact ⟨List.mem_filter.mpr ⟨hmem, decide_eq_true (hne c hc)⟩, fun h =>
      hdep (List.mem_filter.mp h).1⟩
  · intro x hx c hc hin
    obtain ⟨t, ht, rfl⟩ := List.mem_map.mp hx
    exact (hinv.visits t ht c hc hin).imp_left fun hwait =>
      List.mem_filter.mpr ⟨hwait, decide_eq_true (hne c hc)⟩
  · intro x hx c hc
    obtain ⟨t, ht, rfl⟩ := List.mem_map.mp hx
    exact hinv.waits t ht c (List.mem_filter.mp hc).1
  · intro c hc
    refine (hinv.informed c hc).congr ?_
    have hsame : ∀ t : Announcing,
        Announcing.owedTo { t with waiting := t.waiting.filter fun c => c ≠ peer } c =
          t.owedTo c := by
      intro t
      unfold Announcing.owedTo
      cases t.notices with
      | nil => rfl
      | cons m rest => simp [hne c hc]
    intro n
    constructor
    · rintro ⟨x, hx, m, hm, rfl⟩
      obtain ⟨t, ht, rfl⟩ := List.mem_map.mp hx
      exact ⟨t, ht, m, hsame t ▸ hm, rfl⟩
    · rintro ⟨t, ht, m, hm, rfl⟩
      exact ⟨_, List.mem_map_of_mem ht, m, (hsame t).symm ▸ hm, rfl⟩

/-! ### Every run -/

theorem AgreeInv.step (hinv : AgreeInv s) (hok : Orderly s a) (hstep : s.step a = some s') :
    AgreeInv s' := by
  cases a with simp only [OwnershipServer.step] at hstep
  | admission peer =>
    split at hstep
    · cases hstep
    · cases hstep
      refine ⟨hinv.nodup, ?_, hinv.visits, hinv.waits, hinv.informed⟩
      intro c hc
      exact ⟨List.mem_append_left _ (hinv.present c hc).1, (hinv.present c hc).2⟩
  | getCurrentOwner session object =>
    split at hstep
    · cases hstep
      exact hinv.getCurrentOwner hok
    · cases hstep
  | changeCurrentOwner session object =>
    split at hstep
    · cases hstep
      exact hinv.changeCurrentOwner session object
    · cases hstep
  | removeCurrentOwner session object playerId =>
    split at hstep
    · cases hstep
      exact hinv.removeCurrentOwner session object playerId
    · cases hstep
  | handleDisconnect session =>
    split at hstep
    · cases hstep
    · cases hstep
      exact hinv.handleDisconnect session
  | queueTo task c => exact hinv.queueTo hok hstep
  | endBroadcast task => exact hinv.endBroadcast hstep
  | leave peer =>
    split at hstep
    · cases hstep
    · rename_i hguard
      cases hstep
      exact hinv.leave (by simpa using (not_or.mp hguard).1)

theorem agreeInv_of_reachable (h : Reachable system Orderly s) : AgreeInv s := by
  apply Reachable.invariant AgreeInv ?_ (fun _ _ _ => AgreeInv.step) h
  intro s hs
  obtain ⟨hnodup, hdeparting, hannouncing, -, htold, hthroughout⟩ := hs
  refine ⟨hnodup, ?_, ?_, ?_, ?_⟩
  · intro c hc
    exact ⟨hthroughout ▸ hc, by simp [hdeparting]⟩
  · simp [hannouncing]
  · simp [hannouncing]
  · intro c hc
    rw [queueOf, htold]
    refine Informed.empty.congr fun n => ?_
    simp [owes, hannouncing]

/-- **The clients agree on the owners.**  In a run in which no announcement overtakes a later one
about the same id and no request makes an owner of an id that another client has heard of, once all
announcements are queued the last one about an id to a client that was connected throughout names
the owner that the map holds, or that there is none; so any two such clients agree. -/
theorem ownership_agreement (h : Reachable system Orderly s) (hdone : s.announcing = []) :
    (∀ c ∈ s.throughout, ∀ object, ∀ m,
      ((s.queueOf c).filter fun x => x.ownershipId = object).getLast? = some m →
        m.names = s.ownerOf object) ∧
    ∀ c ∈ s.throughout, ∀ c' ∈ s.throughout, ∀ object, ∀ m m',
      ((s.queueOf c).filter fun x => x.ownershipId = object).getLast? = some m →
      ((s.queueOf c').filter fun x => x.ownershipId = object).getLast? = some m' →
        m.names = m'.names := by
  have hlast : ∀ c ∈ s.throughout, ∀ object, ∀ m,
      ((s.queueOf c).filter fun x => x.ownershipId = object).getLast? = some m →
        m.names = s.ownerOf object := by
    intro c hc object m hm
    refine ((agreeInv_of_reachable h).informed c hc).last_eq (m := m.note) ?_ ?_
    · simp [owes, hdone]
    · rw [List.filter_map, List.getLast?_map]
      show (((s.queueOf c).filter fun x => x.ownershipId = object).getLast?).map _ = _
      rw [hm]
      rfl
  refine ⟨hlast, ?_⟩
  intro c hc c' hc' object m m' hm hm'
  rw [hlast c hc object m hm, hlast c' hc' object m' hm']

/-- Three clients and no ownerships. -/
def threeClients : OwnershipServer :=
  { members := [1, 2, 3], departing := [], ownership := ⟨[]⟩, announcing := []
    throughout := [1, 2, 3], changes := [], told := [] }

/-- One broadcast from beginning to end. -/
def broadcastTo (task : ℕ) (clients : List PeerId) : List Action :=
  clients.map (.queueTo task) ++ [.endBroadcast task]

/-- What the last message says of an id is not what the map holds. -/
def misled (s : OwnershipServer) (c : PeerId) (object : String) : Bool :=
  s.announcing = [] && c ∈ s.throughout &&
    (((s.queueOf c).filter fun x => x.ownershipId = object).getLast?.any fun m =>
      m.names ≠ s.ownerOf object)

/-- The first client takes a lamp and leaves while the second takes it over. -/
def orderlyRun : List Action :=
  [.changeCurrentOwner ⟨1, 0⟩ "lamp"] ++ broadcastTo 0 [1, 2, 3] ++
    [.changeCurrentOwner ⟨2, 0⟩ "lamp"] ++ broadcastTo 0 [3, 2, 1] ++
    [.getCurrentOwner ⟨3, 0⟩ "lamp"] ++ broadcastTo 0 [3] ++
    [.handleDisconnect ⟨2, 0⟩] ++ broadcastTo 0 [1, 3] ++ [.leave 2]

theorem ownership_agreement_orderly :
    ∃ s, Reachable system Orderly s ∧ s.announcing = [] ∧
      s.throughout = [1, 3] ∧ (s.queueOf 3).length = 4 ∧
      ∀ m, ((s.queueOf 3).filter fun x => x.ownershipId = "lamp").getLast? = some m →
        m.names = s.ownerOf "lamp" := by
  have hrun : (runActions system threeClients orderlyRun).any (fun s =>
      decide (s.announcing = [] ∧ s.throughout = [1, 3] ∧ (s.queueOf 3).length = 4)) = true := by
    decide +kernel
  have hok : Admits system Orderly threeClients orderlyRun := by decide +kernel
  obtain ⟨s, hs, hP⟩ := exists_reachable_of_run Orderly hok
    (.init ⟨.nil, rfl, rfl, rfl, rfl, rfl⟩) hrun
  obtain ⟨hdone, hthroughout, hlength⟩ := of_decide_eq_true hP
  refine ⟨s, hs, hdone, hthroughout, hlength, ?_⟩
  exact (ownership_agreement hs hdone).1 3 (by rw [hthroughout]; decide) "lamp"

/-- Two clients take the lamp one after the other; the announcement of the first is queued last. -/
def overtakingRun : List Action :=
  [.changeCurrentOwner ⟨1, 0⟩ "lamp", .changeCurrentOwner ⟨2, 0⟩ "lamp"] ++
    broadcastTo 1 [1, 2, 3] ++ broadcastTo 0 [1, 2, 3]

/-- A client gives the lamp up; another gets it by asking for its owner, and is the only one
told. -/
def silentRun : List Action :=
  [.changeCurrentOwner ⟨1, 0⟩ "lamp"] ++ broadcastTo 0 [1, 2, 3] ++
    [.removeCurrentOwner ⟨1, 0⟩ "lamp" 1] ++ broadcastTo 0 [1, 2, 3] ++
    [.getCurrentOwner ⟨2, 0⟩ "lamp"] ++ broadcastTo 0 [2]

/-- No handler starts while another one is at work. -/
def Solitary (s : OwnershipServer) : Action → Prop
  | .queueTo _ _ | .endBroadcast _ | .leave _ => True
  | _ => s.announcing = []

instance (s : OwnershipServer) : ∀ a, Decidable (Solitary s a)
  | .queueTo _ _ | .endBroadcast _ | .leave _ => .isTrue trivial
  | .admission _ | .getCurrentOwner _ _ | .changeCurrentOwner _ _ | .removeCurrentOwner _ _ _
  | .handleDisconnect _ => inferInstanceAs (Decidable (s.announcing = []))

/-- Neither is an announcement safe from being overtaken, nor is it enough that none is. -/
theorem ownership_disagreement :
    (¬ ∀ s, Reachable system (fun _ _ => True) s → ∀ c object, s.misled c object = false) ∧
    ¬ ∀ s, Reachable system Solitary s → ∀ c object, s.misled c object = false := by
  have hinit : Reachable system Solitary threeClients := .init ⟨.nil, rfl, rfl, rfl, rfl, rfl⟩
  constructor
  · have hrun : (runActions system threeClients overtakingRun).any
        (fun s => s.misled 3 "lamp") = true := by
      decide +kernel
    intro hall
    obtain ⟨s, hs, hP⟩ := exists_reachable_of_free_run (hinit.mono fun _ _ _ => trivial) hrun
    rw [hall s hs] at hP
    cases hP
  · have hrun : (runActions system threeClients silentRun).any
        (fun s => s.misled 3 "lamp") = true := by
      decide +kernel
    have hok : Admits system Solitary threeClients silentRun := by decide +kernel
    intro hall
    obtain ⟨s, hs, hP⟩ := exists_reachable_of_run Solitary hok hinit hrun
    rw [hall s hs] at hP
    cases hP

end OwnershipServer

end BasisRust.Server
