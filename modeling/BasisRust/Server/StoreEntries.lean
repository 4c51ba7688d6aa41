import BasisRust.Server.LastLeaver

/-!
# The entries of the shared stores

The ids of the names of a store are different (`NetIdState.Named`).  `Stores.made` says that a
session made an entry that is there, and `Stores.Grows` what an operation may add to the entries.
-/

namespace BasisRust.Server

open Library

/-! ### The network ids -/

namespace NetIdState

structure Named (reserved : String) (st : NetIdState) : Prop where
  keeps : st.reservedName = some reserved
  nodup : AssocNodup st.byName
  zero : assocGet reserved st.byName = some ⟨0, none⟩
  pos : 0 < st.nextId
  le : st.nextId ≤ 65536
  lt : ∀ x ∈ st.byName, x.2.id.toNat < st.nextId
  inj : ∀ x ∈ st.byName, ∀ y ∈ st.byName, x.2.id = y.2.id → x.1 = y.1

variable {st : NetIdState} {reserved : String}

theorem named_withReservedName (reserved : String) :
    Named reserved (withReservedName reserved) where
  keeps := rfl
  nodup := by simp [withReservedName, AssocNodup]
  zero := by simp [withReservedName, assocGet]
  pos := Nat.one_pos
  le := by simp [withReservedName]
  lt := by simp [withReservedName]
  inj := by simp [withReservedName]

theorem Named.removePeer (h : Named reserved st) (peer : PeerId) :
    Named reserved (st.removePeer peer) :=
  ⟨h.keeps, h.nodup, h.zero, h.pos, h.le, h.lt, h.inj⟩

theorem Named.reset_byName (h : Named reserved st) : st.reset.byName = [(reserved, ⟨0, none⟩)] := by
  rw [reset, h.keeps]

theorem Named.reset (h : Named reserved st) : Named reserved st.reset := by
  have hnew := named_withReservedName reserved
  rw [NetIdState.reset, h.keeps]
  exact ⟨rfl, hnew.nodup, hnew.zero, hnew.pos, hnew.le, hnew.lt, hnew.inj⟩

/-- The name is found, refused, or gets the next id. -/
theorem addOrFindForPeer_cases (st : NetIdState) (name : String) (s : PeerSession) (maxIds : ℕ) :
    (∃ entry, assocGet name st.byName = some entry ∧
      st.addOrFindForPeer name s maxIds = (some (entry.id, true), st)) ∨
    st.addOrFindForPeer name s maxIds = (none, st) ∨
    ∃ assigned, assocGet name st.byName = none ∧ st.nextId ≤ 65535 ∧
      st.addOrFindForPeer name s maxIds = (some (BitVec.ofNat 16 st.nextId, false),
        { st with
          nextId := st.nextId + 1
          byName := assocSet name ⟨BitVec.ofNat 16 st.nextId, some s⟩ st.byName
          perPeerAssigned := assocSet s.peer assigned st.perPeerAssigned }) := by
  rw [addOrFindForPeer]
  cases hname : assocGet name st.byName with
  | some entry => exact .inl ⟨entry, rfl, rfl⟩
  | none =>
    refine .inr ?_
    dsimp only
    by_cases hmax : maxIds ≤ (assocGet s.peer st.perPeerAssigned).getD 0
    · rw [if_pos hmax]
      exact .inl rfl
    · rw [if_neg hmax]
      by_cases hnext : 65535 < st.nextId
      · rw [if_pos hnext]
        exact .inl rfl
      · rw [if_neg hnext]
        exact .inr ⟨_, rfl, Nat.le_of_not_lt hnext, rfl⟩

theorem Named.assign (h : Named reserved st) {name : String} (s : PeerSession)
    (hname : assocGet name st.byName = none) (hnext : st.nextId ≤ 65535)
    (perPeerAssigned : List (PeerId × ℕ)) :
    Named reserved { st with
      nextId := st.nextId + 1
      byName := assocSet name ⟨BitVec.ofNat 16 st.nextId, some s⟩ st.byName
      perPeerAssigned := perPeerAssigned } := by
  have hid : (BitVec.ofNat 16 st.nextId).toNat = st.nextId :=
    BitVec.toNat_ofNat _ _ ▸ Nat.mod_eq_of_lt (by omega)
  have hfresh : ∀ x ∈ st.byName, x.2.id ≠ BitVec.ofNat 16 st.nextId := by
    intro x hx heq
    have hlt := h.lt x hx
    rw [heq, hid] at hlt
    exact Nat.lt_irrefl _ hlt
  have hne : reserved ≠ name := by
    rintro rfl
    rw [h.zero] at hname
    cases hname
  refine ⟨h.keeps, h.nodup.put name (some _), ?_, Nat.succ_pos _, by dsimp only; omega,
    fun x hx => ?_, fun x hx y hy heq => ?_⟩
  · exact (assocGet_set_of_ne hne _ _).trans h.zero
  · rcases mem_assocSet hx with rfl | hx
    · dsimp only
      omega
    · exact Nat.lt_succ_of_lt (h.lt x hx)
  · rcases mem_assocSet hx with rfl | hx
    · rcases mem_assocSet hy with rfl | hy
      · rfl
      · exact absurd heq.symm (hfresh y hy)
    · rcases mem_assocSet hy with rfl | hy
      · exact absurd heq (hfresh x hx)
      · exact h.inj x hx y hy heq

theorem Named.addOrFindForPeer (h : Named reserved st) (name : String) (s : PeerSession)
    (maxIds : ℕ) : Named reserved (st.addOrFindForPeer name s maxIds).2 := by
  rcases addOrFindForPeer_cases st name s maxIds with
    ⟨entry, -, heq⟩ | heq | ⟨assigned, hname, hnext, heq⟩
  · rw [heq]
    exact h
  · rw [heq]
    exact h
  · rw [heq]
    exact h.assign s hname hnext _

end NetIdState

/-! ### Who made what -/

inductive Entry where
  | netId (name : String)
  | ownership (object : String)
  | sphere (sphere : String)
  | pip (peer : PeerId)
  deriving DecidableEq

def Entry.store : Entry → Store
  | .netId _ => .netIds
  | .ownership _ => .ownership
  | .sphere _ => .contentShare
  | .pip _ => .pip

namespace Stores

variable {α β : Type} {x : Stores α β}

/-- The entry is there, and the session made it. -/
def made (x : Stores α β) : Entry → PeerSession → Prop
  | .netId name, c => ∃ entry, (name, entry) ∈ x.netIds.byName ∧ entry.creator = some c
  | .ownership object, c => ∃ w, (object, w) ∈ x.ownership.byObject ∧ w.creator = c
  | .sphere sphere, c => ∃ w, (sphere, w) ∈ x.contentShare.spheres ∧ w.creator = c
  | .pip peer, c => ∃ w, (peer, w) ∈ x.pip.states ∧ w.creator = c

/-- An entry belongs to the peer of the session that made it. -/
structure Belongs (x : Stores α β) : Prop where
  ownership : ∀ w ∈ x.ownership.byObject, w.2.owner = w.2.creator.peer
  sphere : ∀ w ∈ x.contentShare.spheres, w.2.playerId = w.2.creator.peer
  pip : ∀ w ∈ x.pip.states, w.1 = w.2.creator.peer

/-- The stores after a step have entries of before and entries that `news` allows. -/
structure Grows (news : Entry → PeerSession → Prop) (x y : Stores α β) : Prop where
  made : ∀ e c, y.made e c → x.made e c ∨ news e c
  belongs : x.Belongs → y.Belongs

variable {news : Entry → PeerSession → Prop}

theorem Grows.refl (x : Stores α β) : Grows news x x := ⟨fun _ _ => .inl, id⟩

theorem Grows.netIds {netIds : NetIdState} (h : ∀ w ∈ netIds.byName, w ∈ x.netIds.byName ∨
      ∀ c, w.2.creator = some c → news (.netId w.1) c) :
    Grows news x { x with netIds := netIds } := by
  refine ⟨fun e c hmade => ?_, fun hbelongs => ⟨hbelongs.1, hbelongs.2, hbelongs.3⟩⟩
  cases e with
  | netId name =>
    obtain ⟨w, hw, hc⟩ := hmade
    rcases h _ hw with hold | hnews
    · exact .inl ⟨w, hold, hc⟩
    · exact .inr (hnews c hc)
  | _ => exact .inl hmade

theorem Grows.ownership {ownership : OwnershipState}
    (h : ∀ w ∈ ownership.byObject, w ∈ x.ownership.byObject ∨
      (w.2.owner = w.2.creator.peer ∧ news (.ownership w.1) w.2.creator)) :
    Grows news x { x with ownership := ownership } := by
  refine ⟨fun e c hmade => ?_, fun hbelongs => ⟨fun w hw => ?_, hbelongs.2, hbelongs.3⟩⟩
  · cases e with
    | ownership object =>
      obtain ⟨w, hw, rfl⟩ := hmade
      rcases h _ hw with hold | hnews
      · exact .inl ⟨w, hold, rfl⟩
      · exact .inr hnews.2
    | _ => exact .inl hmade
  · rcases h w hw with hold | hnews
    · exact hbelongs.1 w hold
    · exact hnews.1

/-- The spheres of before may have changed, but not who they belong to. -/
theorem Grows.contentShare {contentShare : ContentShareState α} (h : ∀ w ∈ contentShare.spheres,
      (∃ w' ∈ x.contentShare.spheres, w'.1 = w.1 ∧ w'.2.playerId = w.2.playerId ∧
        w'.2.creator = w.2.creator) ∨
      (w.2.playerId = w.2.creator.peer ∧ news (.sphere w.1) w.2.creator)) :
    Grows news x { x with contentShare := contentShare } := by
  refine ⟨fun e c hmade => ?_, fun hbelongs => ⟨hbelongs.1, fun w hw => ?_, hbelongs.3⟩⟩
  · cases e with
    | sphere sphere =>
      obtain ⟨w, hw, rfl⟩ := hmade
      rcases h _ hw with ⟨w', hw', hkey, -, hcreator⟩ | hnews
      · obtain ⟨key, w'⟩ := w'
        cases hkey
        exact .inl ⟨w', hw', hcreator⟩
      · exact .inr hnews.2
    | _ => exact .inl hmade
  · rcases h w hw with ⟨w', hw', -, hplayer, hcreator⟩ | hnews
    · rw [← hplayer, ← hcreator]
      exact hbelongs.2 w' hw'
    · exact hnews.1

/-- The cameras of before may have changed, but not who they belong to. -/
theorem Grows.pip {pip : PipState β} (h : ∀ w ∈ pip.states,
      (∃ w' ∈ x.pip.states, w'.1 = w.1 ∧ w'.2.creator = w.2.creator) ∨
      (w.1 = w.2.creator.peer ∧ news (.pip w.1) w.2.creator)) :
    Grows news x { x with pip := pip } := by
  refine ⟨fun e c hmade => ?_, fun hbelongs => ⟨hbelongs.1, hbelongs.2, fun w hw => ?_⟩⟩
  · cases e with
    | pip peer =>
      obtain ⟨w, hw, rfl⟩ := hmade
      rcases h _ hw with ⟨w', hw', hkey, hcreator⟩ | hnews
      · obtain ⟨key, w'⟩ := w'
        cases hkey
        exact .inl ⟨w', hw', hcreator⟩
      · exact .inr hnews.2
    | _ => exact .inl hmade
  · rcases h w hw with ⟨w', hw', hkey, hcreator⟩ | hnews
    · rw [← hkey, ← hcreator]
      exact hbelongs.3 w' hw'
    · exact hnews.1

/-! ### The operations of the stores -/

theorem Grows.addOrFindForPeer {reserved : String} (h : NetIdState.Named reserved x.netIds)
    (name : String) (s : PeerSession) (maxIds : ℕ)
    (hnews : reserved ≠ name → (x.netIds.addOrFindForPeer name s maxIds).1.isSome = true →
      news (.netId name) s) :
    Grows news x { x with netIds := (x.netIds.addOrFindForPeer name s maxIds).2 } := by
  refine .netIds fun w hw => ?_
  rcases x.netIds.addOrFindForPeer_cases name s maxIds with
    ⟨entry, -, heq⟩ | heq | ⟨assigned, hname, -, heq⟩
  · rw [heq] at hw
    exact .inl hw
  · rw [heq] at hw
    exact .inl hw
  · rw [heq] at hw hnews
    rcases mem_assocSet hw with rfl | hw
    · refine .inr fun c hc => ?_
      cases hc
      refine hnews (fun hreserved => ?_) rfl
      rw [← hreserved, h.zero] at hname
      cases hname
    · exact .inl hw

theorem Grows.requestNewOrExisting (object : String) (s : PeerSession)
    (hnews : assocGet object x.ownership.byObject = none → news (.ownership object) s) :
    Grows news x { x with ownership := (x.ownership.requestNewOrExisting object s).2 } := by
  refine .ownership fun w hw => ?_
  rw [OwnershipState.requestNewOrExisting] at hw
  cases hobject : assocGet object x.ownership.byObject with
  | some w' =>
    rw [hobject] at hw
    exact .inl hw
  | none =>
    rw [hobject] at hw
    rcases mem_assocSet hw with rfl | hw
    · exact .inr ⟨rfl, hnews hobject⟩
    · exact .inl hw

theorem Grows.switchOwnership (object : String) (s : PeerSession)
    (hnews : news (.ownership object) s) :
    Grows news x { x with ownership := (x.ownership.switchOwnership object s).2 } := by
  refine .ownership fun w hw => ?_
  rcases mem_assocSet hw with rfl | hw
  · exact .inr ⟨rfl, hnews⟩
  · exact .inl hw

theorem Grows.removeIfOwner (object : String) (peer : PeerId) :
    Grows news x { x with ownership := (x.ownership.removeIfOwner object peer).2 } := by
  refine .ownership fun w hw => .inl ?_
  rw [OwnershipState.removeIfOwner] at hw
  split_ifs at hw
  · exact mem_of_mem_assocErase hw
  · exact hw

theorem Grows.addWithLimitAndProtection (sphere : String) (s : PeerSession) (content : α)
    (maxSpheres : ℕ) (sharerProtected : Bool) (now : ℕ)
    (hnews : (x.contentShare.addWithLimitAndProtection sphere s content maxSpheres sharerProtected
      now).1 = true → news (.sphere sphere) s) :
    Grows news x { x with contentShare :=
      (x.contentShare.addWithLimitAndProtection sphere s content maxSpheres sharerProtected
        now).2 } := by
  refine .contentShare fun w hw => ?_
  rw [ContentShareState.addWithLimitAndProtection] at hw hnews
  split_ifs at hw hnews
  · exact .inl ⟨w, hw, rfl, rfl, rfl⟩
  · rcases mem_assocSet hw with rfl | hw
    · exact .inr ⟨rfl, hnews rfl⟩
    · exact .inl ⟨w, hw, rfl, rfl, rfl⟩

theorem Grows.removeAuthorized (sphere : String) (peer : PeerId) (isModerator locked : Bool) :
    Grows news x { x with contentShare :=
      (x.contentShare.removeAuthorized sphere peer isModerator locked).2 } := by
  refine .contentShare fun w hw => .inl ⟨w, ?_, rfl, rfl, rfl⟩
  rw [ContentShareState.removeAuthorized] at hw
  cases hsphere : assocGet sphere x.contentShare.spheres with
  | none =>
    rw [hsphere] at hw
    exact hw
  | some existing =>
    simp only [hsphere] at hw
    split_ifs at hw
    · exact hw
    · exact mem_of_mem_assocErase hw

theorem Grows.expireDue (now : ℕ) (leaveTimeout deletionTimer : ℤ) :
    Grows news x { x with contentShare :=
      (x.contentShare.expireDue now leaveTimeout deletionTimer).2 } :=
  .contentShare fun w hw => .inl ⟨w, (List.mem_filter.mp hw).1, rfl, rfl, rfl⟩

theorem Grows.removePlayerWithTimeout (peer : PeerId) (leaveTimeout : ℤ) (now : ℕ) :
    Grows news x { x with contentShare :=
      (x.contentShare.removePlayerWithTimeout peer leaveTimeout now).2 } := by
  refine .contentShare fun w hw => .inl ?_
  rw [ContentShareState.removePlayerWithTimeout] at hw
  by_cases htimeout : 0 < leaveTimeout
  · rw [if_pos htimeout] at hw
    obtain ⟨w', hw', rfl⟩ := List.mem_map.mp hw
    refine ⟨w', hw', ?_⟩
    split_ifs <;> exact ⟨rfl, rfl, rfl⟩
  · rw [if_neg htimeout] at hw
    exact ⟨w, (List.mem_filter.mp hw).1, rfl, rfl, rfl⟩

theorem Grows.stateChange (s : PeerSession) (isActive : Bool) (pose : β)
    (hnews : isActive = true → news (.pip s.peer) s) :
    Grows news x { x with pip := x.pip.stateChange s isActive pose } := by
  refine .pip fun w hw => ?_
  rw [PipState.stateChange] at hw
  cases isActive with
  | true =>
    rcases mem_assocSet hw with rfl | hw
    · exact .inr ⟨rfl, hnews rfl⟩
    · exact .inl ⟨w, hw, rfl, rfl⟩
  | false =>
    cases hexisting : assocGet s.peer x.pip.states with
    | none =>
      simp only [hexisting] at hw
      exact .inl ⟨w, hw, rfl, rfl⟩
    | some existing =>
      simp only [hexisting] at hw
      rcases mem_assocSet hw with rfl | hw
      · exact .inl ⟨_, mem_keys_of_assocGet hexisting, rfl, rfl⟩
      · exact .inl ⟨w, hw, rfl, rfl⟩

theorem Grows.positionUpdate (peer : PeerId) (pose : β) :
    Grows news x { x with pip := x.pip.positionUpdate peer pose } := by
  refine .pip fun w hw => .inl ?_
  rw [PipState.positionUpdate] at hw
  cases hexisting : assocGet peer x.pip.states with
  | none =>
    rw [hexisting] at hw
    exact ⟨w, hw, rfl, rfl⟩
  | some existing =>
    simp only [hexisting] at hw
    split_ifs at hw
    · exact ⟨w, hw, rfl, rfl⟩
    · rcases mem_assocSet hw with rfl | hw
      · exact ⟨_, mem_keys_of_assocGet hexisting, rfl, rfl⟩
      · exact ⟨w, hw, rfl, rfl⟩

end Stores

end BasisRust.Server
