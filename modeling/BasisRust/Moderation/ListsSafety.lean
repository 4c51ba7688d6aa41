import BasisRust.Moderation.Lists

/-!
# Moderation state survives a restart

`Consistent` relates the lists in memory to the files: reading a file gives the list, for the line
lists up to the order.  It also says that the lists are as a reader leaves them, so that a list that
is written is read back as it is.
-/

namespace BasisRust.Moderation

open Library
open Library.Prog

variable {ids : Identities} {s uuid : Text} {op : ModerationOp} {m' : ModerationLists}
  {E : ModerationError → ModerationLists → Prop}

/-! ### Identities -/

theorem normalizeIdentity_idem (s : Text) :
    normalizeIdentity ids (normalizeIdentity ids s) = normalizeIdentity ids s := by
  unfold normalizeIdentity
  cases h : ids.parseUuid s with
  | none => rw [Option.getD_none, h, Option.getD_none]
  | some c => rw [Option.getD_some, ids.parse_canonical s c h, Option.getD_some]

theorem isWhitespace_of_alphanum {c : Char} (h : c.isAlphanum = true ∨ c = '-') :
    isWhitespace c = false := by
  rcases h with h | rfl
  · have hn := toNat_of_alphanum h
    simp only [isWhitespace, Bool.or_eq_false_iff, Bool.and_eq_false_iff, decide_eq_false_iff_not]
    omega
  · decide

variable {v : Text}

theorem trim_of_no_whitespace (h : ∀ c ∈ v, isWhitespace c = false) : trim v = v := by
  have hstart : trimStart v = v := by
    refine List.dropWhile_eq_self_iff.mpr ?_
    intro hpos
    rw [h _ (List.getElem_mem hpos)]
    exact Bool.false_ne_true
  show trimEnd (trimStart v) = v
  rw [hstart]
  refine List.rdropWhile_eq_self_iff.mpr ?_
  intro hne
  rw [h _ (List.getLast_mem hne)]
  exact Bool.false_ne_true

/-- The canonical spelling of a UUID is a plain line. -/
theorem plain_canonical {c : Text} (h : ids.parseUuid s = some c) : Plain c ∧ c ≠ [] := by
  obtain ⟨hne, hchars⟩ := ids.canonical_digits s c h
  refine ⟨⟨?_, trim_of_no_whitespace fun ch hch => isWhitespace_of_alphanum (hchars ch hch), ?_⟩,
    hne⟩
  · intro hmem
    exact absurd (isWhitespace_of_alphanum (hchars _ hmem)) (by decide)
  · intro hhead
    have hmem := List.mem_of_mem_head? (Option.mem_def.mpr hhead)
    rcases hchars _ hmem with hbom | hbom
    · exact absurd hbom (by decide)
    · exact absurd hbom (by decide)

theorem isBlank_of_trim (h : trim v = v) (hne : v ≠ []) : isBlank v = false := by
  unfold isBlank
  rw [h]
  exact List.isEmpty_eq_false_iff.mpr hne

theorem ne_nil_of_not_blank (h : isBlank v = false) : v ≠ [] := by
  rintro rfl
  cases h

theorem normalizeIdentity_ne_nil (h : isBlank s = false) : normalizeIdentity ids s ≠ [] := by
  unfold normalizeIdentity
  cases hparse : ids.parseUuid s with
  | none => exact ne_nil_of_not_blank h
  | some c => exact (plain_canonical hparse).2

/-! ### Bans -/

/-- What makes two bans the same restriction. -/
def BannedPlayer.restriction (ids : Identities) (p : BannedPlayer) : Text × Option (Option Text) :=
  (p.uuid, (ids.parseUuid p.uuid).map fun _ => if p.hasBannedIp then some p.bannedIp else none)

theorem BannedPlayer.sameRestriction_iff (p other : BannedPlayer) :
    p.sameRestriction ids other = true ↔ p.restriction ids = other.restriction ids := by
  unfold sameRestriction restriction
  rw [Bool.and_eq_true, decide_eq_true_eq, Prod.mk.injEq]
  refine and_congr_right ?_
  intro huuid
  rw [← huuid]
  cases ids.parseUuid p.uuid with
  | none => simp
  | some c => cases p.hasBannedIp <;> cases other.hasBannedIp <;> simp

theorem BannedPlayer.normalize_idem (p : BannedPlayer) :
    (p.normalize ids).normalize ids = p.normalize ids := by
  obtain ⟨uuid, ip, reason, has, time⟩ := p
  cases has with
  | false => simp [normalize, normalizeIdentity_idem]
  | true => simp [normalize, normalizeIdentity_idem, ids.normalizeIp_idem]

/-- Bans as a reader leaves them. -/
structure TidyBans (ids : Identities) (players : List BannedPlayer) : Prop where
  normal : ∀ p ∈ players, p.normalize ids = p
  distinct : (players.map (BannedPlayer.restriction ids)).Nodup

theorem TidyBans.nil : TidyBans ids [] := ⟨fun _ hp => (nomatch hp), List.nodup_nil⟩

theorem TidyBans.putBan {players : List BannedPlayer} {player : BannedPlayer}
    (h : TidyBans ids players) (hp : player.normalize ids = player) :
    TidyBans ids (putBan ids players player) := by
  refine ⟨?_, nodup_replaceOrPush (fun p => p.sameRestriction_iff player) h.distinct⟩
  intro p hmem
  rcases mem_replaceOrPush hmem with heq | hmem
  · rw [heq]
    exact hp
  · exact h.normal p hmem

theorem TidyBans.filter {players : List BannedPlayer} (h : TidyBans ids players)
    (f : BannedPlayer → Bool) : TidyBans ids (players.filter f) :=
  ⟨fun p hp => h.normal p (List.mem_of_mem_filter hp),
    h.distinct.sublist (List.filter_sublist.map _)⟩

theorem tidyBans_loadBans (players : List BannedPlayer) : TidyBans ids (loadBans ids players) :=
  List.foldlRecOn players _ TidyBans.nil fun _ h p _ => h.putBan p.normalize_idem

/-- Bans that are tidy are read back. -/
theorem loadBans_of_tidy {players : List BannedPlayer} (h : TidyBans ids players) :
    loadBans ids players = players := by
  refine foldl_push (BannedPlayer.restriction ids) ?_ [] h.distinct
  intro acc p hp hnew
  rw [h.normal p hp]
  refine replaceOrPush_of_not ?_
  intro y hy
  exact eq_false_of_ne_true fun hsame => hnew y hy ((y.sameRestriction_iff p).mp hsame)

/-! ### Mutes -/

/-- An identity with a normal form of its own. -/
structure NormalKey (ids : Identities) (uuid : Text) : Prop where
  ne_nil : uuid ≠ []
  normal : normalizeIdentity ids uuid = uuid

theorem NormalKey.normalizeIdentity (h : Moderation.normalizeIdentity ids uuid ≠ []) :
    NormalKey ids (Moderation.normalizeIdentity ids uuid) :=
  ⟨h, normalizeIdentity_idem uuid⟩

/-- Mutes as a reader leaves them. -/
structure TidyMutes (ids : Identities) (players : List MutedPlayer) : Prop where
  normal : ∀ uuid ∈ players.map MutedPlayer.uuid, NormalKey ids uuid
  muted : ∀ p ∈ players, (p.voiceMuted || p.textMuted) = true
  distinct : (players.map MutedPlayer.uuid).Nodup

theorem TidyMutes.nil : TidyMutes ids [] :=
  ⟨fun _ hp => (nomatch hp), fun _ hp => (nomatch hp), List.nodup_nil⟩

variable {players : List MutedPlayer}

theorem TidyMutes.replaceOrPush {player : MutedPlayer} (h : TidyMutes ids players)
    (hkey : NormalKey ids uuid) (huuid : player.uuid = uuid)
    (hmuted : (player.voiceMuted || player.textMuted) = true) :
    TidyMutes ids (replaceOrPush (fun p => p.uuid = uuid) player players) := by
  subst huuid
  refine ⟨?_, ?_, nodup_replaceOrPush (fun _ => decide_eq_true_iff) h.distinct⟩
  · intro uuid hmem
    obtain ⟨p, hp, rfl⟩ := List.mem_map.mp hmem
    rcases mem_replaceOrPush hp with heq | hp
    · rw [heq]
      exact hkey
    · exact h.normal _ (List.mem_map_of_mem hp)
  · intro p hp
    rcases mem_replaceOrPush hp with heq | hp
    · rw [heq]
      exact hmuted
    · exact h.muted p hp

theorem TidyMutes.loadMute (h : TidyMutes ids players)
    (entry : MutedPlayer) : TidyMutes ids (loadMute ids players entry) := by
  unfold Moderation.loadMute
  generalize hplayer : { entry with uuid := normalizeIdentity ids entry.uuid } = player
  show TidyMutes ids (if _ then _ else _)
  by_cases hskip : (player.uuid.isEmpty || !(player.voiceMuted || player.textMuted)) = true
  · rw [if_pos hskip]
    exact h
  · rw [if_neg hskip]
    rw [Bool.or_eq_true, not_or, List.isEmpty_iff, Bool.not_eq_true', Bool.not_eq_false] at hskip
    have hkey : NormalKey ids player.uuid := by
      subst hplayer
      exact NormalKey.normalizeIdentity hskip.1
    cases hfind : players.find? fun p => p.uuid = player.uuid with
    | none =>
      have hnone : ∀ y ∈ players, decide (y.uuid = player.uuid) = false := by
        intro y hy
        exact eq_false_of_ne_true (List.find?_eq_none.mp hfind y hy)
      show TidyMutes ids (players ++ [player])
      rw [← replaceOrPush_of_not hnone]
      exact h.replaceOrPush hkey rfl hskip.2
    | some existing =>
      have huuid : existing.uuid = player.uuid := by
        simpa using List.find?_some hfind
      show TidyMutes ids (Library.replaceOrPush _ (if _ then _ else _) players)
      split
      · refine h.replaceOrPush hkey huuid ?_
        have hflags := hskip.2
        simp only [Bool.or_eq_true] at hflags ⊢
        exact hflags.imp .inr .inr
      · exact h.replaceOrPush hkey rfl hskip.2

theorem tidyMutes_loadMutes (players : List MutedPlayer) : TidyMutes ids (loadMutes ids players) :=
  List.foldlRecOn players _ TidyMutes.nil fun _ h p _ => h.loadMute p

/-- Mutes that are tidy are read back. -/
theorem loadMutes_of_tidy (h : TidyMutes ids players) : loadMutes ids players = players := by
  refine foldl_push MutedPlayer.uuid ?_ [] h.distinct
  intro acc p hp hnew
  have hkey := h.normal p.uuid (List.mem_map_of_mem hp)
  have hself : { p with uuid := normalizeIdentity ids p.uuid } = p := by
    rw [hkey.normal]
  have hfind : (acc.find? fun y => y.uuid = p.uuid) = none :=
    List.find?_eq_none.mpr fun y hy => by simpa using hnew y hy
  unfold loadMute
  rw [hself]
  simp [hkey.ne_nil, h.muted p hp, hfind]

theorem map_uuid_modify {f : MutedPlayer → MutedPlayer} (hf : ∀ p, (f p).uuid = p.uuid)
    (players : List MutedPlayer) (i : ℕ) :
    (players.modify i f).map MutedPlayer.uuid = players.map MutedPlayer.uuid := by
  induction players generalizing i with
  | nil => rw [List.modify_nil]
  | cons p players ih =>
    cases i with
    | zero => rw [List.modify_zero_cons, List.map_cons, List.map_cons, hf]
    | succ i => rw [List.modify_succ_cons, List.map_cons, List.map_cons, ih]

theorem TidyMutes.after_muted (h : TidyMutes ids players) (hkey : NormalKey ids uuid)
    (voice mute : Bool) (now : Text) :
    TidyMutes ids (Moderation.muted players uuid voice mute now) := by
  unfold Moderation.muted
  generalize hlist : (if (players.any fun p => decide (p.uuid = uuid)) = true then players
    else players ++ [⟨uuid, false, false, now⟩]) = list
  have hkeys : (∀ key ∈ list.map MutedPlayer.uuid, NormalKey ids key) ∧
      (list.map MutedPlayer.uuid).Nodup := by
    subst hlist
    split
    · exact ⟨h.normal, h.distinct⟩
    · rename_i hany
      rw [List.map_append]
      have hnew : uuid ∉ players.map MutedPlayer.uuid := by
        intro hmem
        obtain ⟨p, hp, heq⟩ := List.mem_map.mp hmem
        exact hany (List.any_eq_true.mpr ⟨p, hp, decide_eq_true heq⟩)
      refine ⟨?_, List.concat_eq_append ▸ h.distinct.concat hnew⟩
      intro key hmem
      rcases List.mem_append.mp hmem with hmem | hmem
      · exact h.normal key hmem
      · rw [List.mem_singleton.mp hmem]
        exact hkey
  have hmodified := map_uuid_modify (f := fun p =>
    if voice then { p with voiceMuted := mute } else { p with textMuted := mute })
    (fun p => by cases voice <;> rfl) list (list.findIdx fun p => decide (p.uuid = uuid))
  rw [← hmodified] at hkeys
  refine ⟨fun key hmem => hkeys.1 key ((List.filter_sublist.map _).subset hmem), ?_,
    hkeys.2.sublist (List.filter_sublist.map _)⟩
  intro p hp
  exact (List.mem_filter.mp hp).2

/-! ### Line lists -/

/-- An identity as a line list holds it. -/
structure Listed (ids : Identities) (v : Text) : Prop extends NormalKey ids v where
  plain : Plain v

theorem Listed.normalizeIdentity (hne : Moderation.normalizeIdentity ids v ≠ [])
    (h : Plain (Moderation.normalizeIdentity ids v)) :
    Listed ids (Moderation.normalizeIdentity ids v) :=
  ⟨.normalizeIdentity hne, h⟩

theorem mem_readLineList {text : Text} :
    v ∈ readLineList (some text) ↔ v ≠ [] ∧ ∃ line ∈ lines (stripBom text), trim line = v := by
  unfold readLineList
  rw [mem_dedupRuns, List.mem_insertionSort, List.mem_filter, List.mem_map, and_comm]
  simp

/-- A line that was read has no white space around it and no line feed in it. -/
theorem of_mem_readLineList {source : Option Text} (h : v ∈ readLineList source) :
    v ≠ [] ∧ trim v = v ∧ lineFeed ∉ v := by
  cases source with
  | none => cases h
  | some text =>
    obtain ⟨hne, line, hline, rfl⟩ := mem_readLineList.mp h
    exact ⟨hne, trim_trim line, fun hmem => lineFeed_notMem_lines hline (mem_of_mem_trim hmem)⟩

theorem listed_of_readLineList {source : Option Text} (hbom : ∀ v ∈ readLineList source, noBom v)
    (h : v ∈ (readLineList source).map (normalizeIdentity ids)) : Listed ids v := by
  obtain ⟨line, hline, rfl⟩ := List.mem_map.mp h
  obtain ⟨hne, htrim, hfeed⟩ := of_mem_readLineList hline
  refine .normalizeIdentity (normalizeIdentity_ne_nil (isBlank_of_trim htrim hne)) ?_
  unfold normalizeIdentity
  cases hparse : ids.parseUuid line with
  | none => exact ⟨hfeed, htrim, hbom line hline⟩
  | some c => exact (plain_canonical hparse).1

/-- **A line list that is written is read back**, up to the order. -/
theorem mem_loadLines_write {values : List Text} (h : ∀ v ∈ values, Listed ids v)
    (legacy : Option Text) (v : Text) :
    v ∈ loadLines ids (some (writeLineList values)) legacy ↔ v ∈ values := by
  have hall : (values.filter fun v => !isBlank v) = values := by
    refine List.filter_eq_self.mpr ?_
    intro w hw
    rw [isBlank_of_trim (h w hw).plain.trimmed (h w hw).ne_nil]
    rfl
  have hbom : noBom (values.flatMap fun w => w ++ [lineFeed]) := by
    cases values with
    | nil => exact fun hhead => (nomatch hhead)
    | cons w values =>
      have hw := h w (.head _)
      cases w with
      | nil => exact absurd rfl hw.ne_nil
      | cons c w => exact hw.plain.bom
  have hlines : lines (stripBom (writeLineList values)) = values := by
    unfold writeLineList
    rw [hall, stripBom_of_noBom hbom]
    exact lines_flatMap fun w hw => ⟨(h w hw).plain.feed, stripCr_of_trim (h w hw).plain.trimmed⟩
  have hread : ∀ w, w ∈ readLineList (some (writeLineList values)) ↔ w ∈ values := by
    intro w
    rw [mem_readLineList, hlines]
    constructor
    · rintro ⟨-, line, hline, rfl⟩
      rw [(h line hline).plain.trimmed]
      exact hline
    · intro hw
      exact ⟨(h w hw).ne_nil, w, hw, (h w hw).plain.trimmed⟩
  show v ∈ (readLineList (some (writeLineList values))).map (normalizeIdentity ids) ↔ _
  rw [List.mem_map]
  constructor
  · rintro ⟨w, hw, rfl⟩
    have hmem := (hread w).mp hw
    rw [(h w hmem).normal]
    exact hmem
  · intro hv
    exact ⟨v, (hread v).mpr hv, (h v hv).normal⟩

theorem listed_changedList {values : List Text} (h : ∀ v ∈ values, Listed ids v) {add : Bool}
    (hadd : add = true → Listed ids uuid) : ∀ v ∈ changedList values uuid add, Listed ids v := by
  intro v hv
  unfold changedList at hv
  cases add with
  | false => exact h v (List.mem_of_mem_filter hv)
  | true =>
    rw [if_pos rfl] at hv
    split at hv
    · exact h v hv
    · rcases List.mem_append.mp hv with hv | hv
      · exact h v hv
      · rw [List.mem_singleton.mp hv]
        exact hadd rfl

/-! ### Memory and files -/

/-- The lists that `reload` takes from the files. -/
def loadState (ids : Identities) (files : ModerationFiles) : ModerationState :=
  ⟨loadBans ids (files.bannedPlayers.getD []), loadMutes ids (files.mutedPlayers.getD []),
    loadLines ids files.whitelist files.legacyWhitelist,
    loadLines ids files.blacklist files.legacyBlacklist⟩

/-- The files once `reload` wrote the missing ones. -/
def filled (ids : Identities) (files : ModerationFiles) : ModerationFiles :=
  { files with
    bannedPlayers := some (files.bannedPlayers.getD [])
    mutedPlayers := some (files.mutedPlayers.getD [])
    whitelist := some (files.whitelist.getD (writeLineList (loadState ids files).whitelist))
    blacklist := some (files.blacklist.getD (writeLineList (loadState ids files).blacklist)) }

/-- No file is missing. -/
structure Complete (files : ModerationFiles) : Prop where
  bans : files.bannedPlayers.isNone = false
  mutes : files.mutedPlayers.isNone = false
  white : files.whitelist.isNone = false
  black : files.blacklist.isNone = false

theorem Complete.filled (files : ModerationFiles) : Complete (filled ids files) :=
  ⟨rfl, rfl, rfl, rfl⟩

/-- A failed operation. -/
structure Untouched (m m' : ModerationLists) : Prop where
  state : m'.state = m.state
  files : Complete m.files → m'.files = m.files

theorem Untouched.refl (m : ModerationLists) : Untouched m m := ⟨rfl, fun _ => rfl⟩

variable {m : ModerationLists}

theorem meets_write (f : ModerationFiles → ModerationFiles) (hE : E .io m) :
    Meets (· = m) (write f) (fun _ m' => m' = { m with files := f m.files }) E := by
  refine .commit ?_ ?_
  · intro _ heq
    rw [heq]
  · intro _ heq
    rw [heq]
    exact hE

theorem meets_writeMissing {α : Type} (get : ModerationFiles → Option α)
    (f : ModerationFiles → ModerationFiles) (hE : E .io m) : Meets (· = m) (writeMissing get f)
      (fun _ m' => m' = { m with files := if (get m.files).isNone then f m.files else m.files })
        E := by
  unfold writeMissing
  refine .bind (R := fun content m' => content = get m.files ∧ m' = m)
    (.view fun _ heq => ⟨by rw [heq], heq⟩) ?_
  intro content
  refine .of_forall ?_
  rintro m' ⟨rfl, rfl⟩
  split
  · exact meets_write f hE
  · exact .pure fun _ heq => heq

theorem meets_reload (m : ModerationLists) :
    Meets (· = m) (reload ids) (fun _ m' => m' = ⟨loadState ids m.files, filled ids m.files⟩)
      (fun _ m' => Untouched m m') := by
  unfold reload
  have hread : ∀ {α : Type} (f : ModerationLists → α),
      Meets (· = m) (.inspect .io f : ListsM α) (fun a m' => a = f m ∧ m' = m)
        (fun _ m' => Untouched m m') := by
    intro α f
    refine .inspect (fun _ heq => ⟨by rw [heq], heq⟩) ?_
    intro _ heq
    rw [heq]
    exact .refl m
  refine .bind (hread _) fun bans => .of_forall ?_
  rintro _ ⟨rfl, rfl⟩
  refine .bind (hread _) fun mutes => .of_forall ?_
  rintro _ ⟨rfl, rfl⟩
  refine .bind (hread _) fun white => .of_forall ?_
  rintro _ ⟨rfl, rfl⟩
  refine .bind (hread _) fun black => .of_forall ?_
  rintro m ⟨rfl, rfl⟩
  -- as long as nothing was missing nothing is written
  refine .bind (meets_writeMissing _ _ (.refl m)) fun _ => .of_forall ?_
  rintro _ rfl
  refine .bind (meets_writeMissing _ _
    ⟨rfl, fun h => by simp only [h.bans, Bool.false_eq_true, if_false]⟩) fun _ => .of_forall ?_
  rintro _ rfl
  refine .bind (meets_writeMissing _ _
    ⟨rfl, fun h => by simp only [h.bans, h.mutes, Bool.false_eq_true, if_false]⟩) fun _ =>
    .of_forall ?_
  rintro _ rfl
  refine .bind (meets_writeMissing _ _
    ⟨rfl, fun h => by simp only [h.bans, h.mutes, h.white, Bool.false_eq_true, if_false]⟩) fun _ =>
    .of_forall ?_
  rintro _ rfl
  refine .modify ?_
  rintro _ rfl
  obtain ⟨state, bans, mutes, white, black, legacyWhite, legacyBlack⟩ := m
  cases bans <;> cases mutes <;> cases white <;> cases black <;> rfl

/-- What an operation that succeeds does to the lists and the files. -/
inductive Move (ids : Identities) (op : ModerationOp) (m : ModerationLists) : ModerationLists → Prop
  | stay : Move ids op m m
  | bans (players : List BannedPlayer)
      (h : TidyBans ids m.state.bannedPlayers → TidyBans ids players) :
      Move ids op m ⟨{ m.state with bannedPlayers := players },
        { m.files with bannedPlayers := some players }⟩
  | mutes (players : List MutedPlayer)
      (h : TidyMutes ids m.state.mutedPlayers → TidyMutes ids players) :
      Move ids op m ⟨{ m.state with mutedPlayers := players },
        { m.files with mutedPlayers := some players }⟩
  | white (values : List Text)
      (h : PlainAdds ids m (op, []) → (∀ v ∈ m.state.whitelist, Listed ids v) →
        ∀ v ∈ values, Listed ids v) :
      Move ids op m ⟨{ m.state with whitelist := values },
        { m.files with whitelist := some (writeLineList values) }⟩
  | black (values : List Text)
      (h : PlainAdds ids m (op, []) → (∀ v ∈ m.state.blacklist, Listed ids v) →
        ∀ v ∈ values, Listed ids v) :
      Move ids op m ⟨{ m.state with blacklist := values },
        { m.files with blacklist := some (writeLineList values) }⟩
  | reload : Move ids op m ⟨loadState ids m.files, filled ids m.files⟩

section

variable {op : ModerationOp} {m : ModerationLists}

/-- Write a file, and then replace the list. -/
theorem meets_write_modify {α : Type} {Q : α → ModerationLists → Prop}
    (f : ModerationFiles → ModerationFiles) (g : ModerationLists → ModerationLists) (a : α)
    (hQ : Q a (g { m with files := f m.files })) :
    Meets (· = m) (do write f; .modify g; pure a) Q fun _ m' => Untouched m m' := by
  refine .bind (meets_write f (.refl m)) fun _ => .of_forall ?_
  rintro _ rfl
  refine .bind (R := fun _ m' => m' = g { m with files := f m.files })
    (.modify fun _ heq => by rw [heq]) fun _ => .pure ?_
  rintro _ rfl
  exact hQ

theorem meets_changeBans {change : List BannedPlayer → Option (List BannedPlayer)}
    (h : ∀ players ∈ change m.state.bannedPlayers,
      TidyBans ids m.state.bannedPlayers → TidyBans ids players) :
    Meets (· = m) (changeBans change) (fun _ m' => Move ids op m m') fun _ m' =>
      Untouched m m' := by
  unfold changeBans
  refine .bind (R := fun players m' => players = m.state.bannedPlayers ∧ m' = m)
    (.view fun _ heq => ⟨by rw [heq], heq⟩) fun players => .of_forall ?_
  rintro m ⟨rfl, rfl⟩
  split
  · refine .pure ?_
    rintro _ rfl
    exact .stay
  · rename_i players hchange
    exact meets_write_modify _ _ _ (.bans players (h players hchange))

theorem meets_removeBans (p : BannedPlayer → Bool) :
    Meets (· = m) (removeBans p) (fun _ m' => Move ids op m m') fun _ m' => Untouched m m' := by
  refine meets_changeBans ?_
  intro players hplayers htidy
  dsimp only at hplayers
  split at hplayers
  · cases hplayers
  · cases hplayers
    exact htidy.filter _

theorem meets_addBanWithDetails (uuid reason : Text) (bannedIp : Option Text) (now : Text) :
    Meets (· = m) (addBanWithDetails ids uuid reason bannedIp now) (fun _ m' => Move ids op m m')
      fun _ m' => Untouched m m' := by
  unfold addBanWithDetails
  dsimp only
  split
  · refine .pure ?_
    rintro _ rfl
    exact .stay
  · refine meets_changeBans ?_
    intro players hplayers htidy
    cases hplayers
    refine htidy.putBan ?_
    unfold BannedPlayer.normalize
    rw [normalizeIdentity_idem]
    cases bannedIp with
    | none => simp [isBlank, trim, trimStart, trimEnd]
    | some ip => simp [ids.normalizeIp_idem]

theorem meets_setMute (uuid : Text) (voice mute : Bool) (now : Text) :
    Meets (· = m) (setMute ids uuid voice mute now) (fun _ m' => Move ids op m m')
      fun _ m' => Untouched m m' := by
  unfold setMute
  split
  · refine .fail ?_
    rintro _ rfl
    exact .refl _
  · rename_i hblank
    have hkey : NormalKey ids (normalizeIdentity ids uuid) :=
      .normalizeIdentity (normalizeIdentity_ne_nil (eq_false_of_ne_true hblank))
    refine .bind (R := fun players m' => players = m.state.mutedPlayers ∧ m' = m)
      (.view fun _ heq => ⟨by rw [heq], heq⟩) fun players => .of_forall ?_
    rintro m ⟨rfl, rfl⟩
    exact meets_write_modify _ _ _ (.mutes _ fun htidy => htidy.after_muted hkey voice mute now)

/-- The identity that an operation adds to a line list is as the list holds it. -/
theorem meets_changeList (uuid : Text) (whitelist add : Bool)
    (hadd : add = true → PlainAdds ids m (op, []) →
      isBlank uuid = true ∨ Plain (normalizeIdentity ids uuid)) :
    Meets (· = m) (changeList ids uuid whitelist add) (fun _ m' => Move ids op m m')
      fun _ m' => Untouched m m' := by
  unfold changeList
  split
  · refine .pure ?_
    rintro _ rfl
    exact .stay
  · rename_i hblank
    have hlisted : PlainAdds ids m (op, []) → add = true →
        Listed ids (normalizeIdentity ids uuid) := by
      intro hplain htrue
      refine .normalizeIdentity (normalizeIdentity_ne_nil (eq_false_of_ne_true hblank)) ?_
      exact (hadd htrue hplain).resolve_left hblank
    refine .bind (R := fun before m' =>
        before = (if whitelist then m.state.whitelist else m.state.blacklist) ∧ m' = m)
      (.view fun _ heq => ⟨by rw [heq], heq⟩) fun before => .of_forall ?_
    rintro m ⟨rfl, rfl⟩
    generalize hvalues : changedList (if whitelist then m.state.whitelist else m.state.blacklist)
      (normalizeIdentity ids uuid) add = values
    by_cases hsame : values = if whitelist then m.state.whitelist else m.state.blacklist
    · rw [if_pos hsame]
      refine .pure ?_
      rintro _ rfl
      exact .stay
    · rw [if_neg hsame]
      subst hvalues
      cases whitelist with
      | true =>
        exact meets_write_modify _ _ _
          (.white _ fun hplain h => listed_changedList h (hlisted hplain))
      | false =>
        exact meets_write_modify _ _ _
          (.black _ fun hplain h => listed_changedList h (hlisted hplain))

/-- **What an operation can do**, and that one that fails does nothing. -/
theorem meets_run (op : ModerationOp) (m : ModerationLists) :
    Meets (· = m) (op.run ids) (fun _ m' => Move ids op m m') fun _ m' => Untouched m m' := by
  cases op with
  | addBanWithDetails uuid reason bannedIp now =>
    exact meets_addBanWithDetails uuid reason bannedIp now
  | addIpBan ip now =>
    show Meets _ (addIpBan ids ip now) _ _
    unfold addIpBan
    dsimp only
    split
    · refine .pure ?_
      rintro _ rfl
      exact .stay
    · exact meets_addBanWithDetails _ _ _ _
  | removeBan | removeIpBan => exact meets_removeBans _
  | setVoiceMute uuid muted now => exact meets_setMute uuid true muted now
  | setTextMute uuid muted now => exact meets_setMute uuid false muted now
  | addWhitelist uuid => exact meets_changeList uuid true true fun _ h => h
  | removeWhitelist uuid => exact meets_changeList uuid true false fun h => (nomatch h)
  | addBlacklist uuid => exact meets_changeList uuid false true fun _ h => h
  | removeBlacklist uuid => exact meets_changeList uuid false false fun h => (nomatch h)
  | reload =>
    refine .bind (meets_reload m) fun _ => .pure ?_
    rintro _ rfl
    exact .reload

end

/-! ### The invariant -/

/-- The lists in memory are those in the files. -/
structure Consistent (ids : Identities) (m : ModerationLists) : Prop where
  complete : Complete m.files
  bans : (loadState ids m.files).bannedPlayers = m.state.bannedPlayers
  mutes : (loadState ids m.files).mutedPlayers = m.state.mutedPlayers
  white : ∀ v, v ∈ (loadState ids m.files).whitelist ↔ v ∈ m.state.whitelist
  black : ∀ v, v ∈ (loadState ids m.files).blacklist ↔ v ∈ m.state.blacklist
  tidyBans : TidyBans ids m.state.bannedPlayers
  tidyMutes : TidyMutes ids m.state.mutedPlayers
  listedWhite : ∀ v ∈ m.state.whitelist, Listed ids v
  listedBlack : ∀ v ∈ m.state.blacklist, Listed ids v

variable {files : ModerationFiles}

/-- Files that were loaded agree with the lists they gave. -/
theorem Consistent.load (h : Readable files) :
    Consistent ids ⟨loadState ids files, filled ids files⟩ := by
  have hwhite : ∀ v ∈ (loadState ids files).whitelist, Listed ids v :=
    fun _ hv => listed_of_readLineList h.1 hv
  have hblack : ∀ v ∈ (loadState ids files).blacklist, Listed ids v :=
    fun _ hv => listed_of_readLineList h.2 hv
  refine ⟨.filled files, rfl, rfl, ?_, ?_, tidyBans_loadBans _, tidyMutes_loadMutes _,
    hwhite, hblack⟩
  · intro v
    cases hfile : files.whitelist with
    | none =>
      have hread := mem_loadLines_write hwhite files.legacyWhitelist v
      simpa only [loadState, filled, hfile, Option.getD_none] using hread
    | some text => simp only [loadState, filled, hfile, Option.getD_some]
  · intro v
    cases hfile : files.blacklist with
    | none =>
      have hread := mem_loadLines_write hblack files.legacyBlacklist v
      simpa only [loadState, filled, hfile, Option.getD_none] using hread
    | some text => simp only [loadState, filled, hfile, Option.getD_some]

theorem Complete.filled_eq (h : Complete files) : Moderation.filled ids files = files := by
  obtain ⟨bans, mutes, white, black, legacyWhite, legacyBlack⟩ := files
  obtain ⟨hbans, hmutes, hwhite, hblack⟩ := h
  cases bans <;> cases mutes <;> cases white <;> cases black <;> first | rfl | contradiction

theorem Move.tidy (hmove : Move ids op m m')
    (h : TidyBans ids m.state.bannedPlayers ∧ TidyMutes ids m.state.mutedPlayers) :
    TidyBans ids m'.state.bannedPlayers ∧ TidyMutes ids m'.state.mutedPlayers := by
  cases hmove with
  | stay | white | black => exact h
  | bans players htidy => exact ⟨htidy h.1, h.2⟩
  | mutes players htidy => exact ⟨h.1, htidy h.2⟩
  | reload => exact ⟨tidyBans_loadBans _, tidyMutes_loadMutes _⟩

theorem Consistent.move (h : Consistent ids m) (hplain : PlainAdds ids m (op, []))
    (hmove : Move ids op m m') : Consistent ids m' := by
  obtain ⟨htidyBans, htidyMutes⟩ := hmove.tidy ⟨h.tidyBans, h.tidyMutes⟩
  cases hmove with
  | stay => exact h
  | bans players htidy =>
    exact { h with
      complete := { h.complete with bans := rfl }
      bans := loadBans_of_tidy htidyBans
      tidyBans := htidyBans }
  | mutes players htidy =>
    exact { h with
      complete := { h.complete with mutes := rfl }
      mutes := loadMutes_of_tidy htidyMutes
      tidyMutes := htidyMutes }
  | white values hlisted =>
    have hnew := hlisted hplain h.listedWhite
    exact { h with
      complete := { h.complete with white := rfl }
      white := mem_loadLines_write hnew _
      listedWhite := hnew }
  | black values hlisted =>
    have hnew := hlisted hplain h.listedBlack
    exact { h with
      complete := { h.complete with black := rfl }
      black := mem_loadLines_write hnew _
      listedBlack := hnew }
  | reload =>
    rw [h.complete.filled_eq]
    exact { h with
      bans := rfl
      mutes := rfl
      white := fun _ => Iff.rfl
      black := fun _ => Iff.rfl
      tidyBans := htidyBans
      tidyMutes := htidyMutes
      listedWhite := fun v hv => h.listedWhite v ((h.white v).mp hv)
      listedBlack := fun v hv => h.listedBlack v ((h.black v).mp hv) }

theorem Consistent.untouched (h : Consistent ids m) (hm : Untouched m m') : Consistent ids m' := by
  have heq : m' = m := by
    obtain ⟨state, files⟩ := m'
    have hstate : state = m.state := hm.state
    have hfiles : files = m.files := hm.files h.complete
    rw [hstate, hfiles]
  rw [heq]
  exact h

theorem fileBacked_eq {faults : List Fault}
    (h : fileBacked ids files faults = some m) : m = ⟨loadState ids files, filled ids files⟩ := by
  have hmeets := @meets_reload ids ⟨.empty, files⟩ ⟨.empty, files⟩ faults rfl
  unfold fileBacked at h
  generalize reload ids ⟨.empty, files⟩ faults = result at h hmeets
  obtain ⟨outcome, m', faults'⟩ := result
  cases outcome with
  | ok a =>
    cases h
    exact hmeets
  | error e => cases h

theorem moderation_step_cases {faults : List Fault}
    (hstep : (moderationSystem ids files).step m (op, faults) = some m') :
    Move ids op m m' ∨ Untouched m m' := by
  have hmeets := @meets_run ids op m m faults rfl
  cases hstep
  generalize op.run ids m faults = result at hmeets
  obtain ⟨outcome, m', faults'⟩ := result
  cases outcome with
  | ok a => exact .inl hmeets
  | error e => exact .inr hmeets

theorem reachable_consistent (hfiles : Readable files)
    (h : Reachable (moderationSystem ids files) (PlainAdds ids) m) :
    Consistent ids m := by
  refine h.invariant (Consistent ids) ?_ ?_
  · rintro m ⟨faults, hm⟩
    rw [fileBacked_eq hm]
    exact .load hfiles
  · rintro m ⟨op, faults⟩ m' hm hplain hstep
    have hop : PlainAdds ids m (op, []) := by
      cases op <;> exact hplain
    rcases moderation_step_cases hstep with hmove | hfailed
    · exact hm.move hop hmove
    · exact hm.untouched hfailed

theorem reachable_tidy (h : Reachable (moderationSystem ids files) (fun _ _ => True) m) :
    TidyBans ids m.state.bannedPlayers ∧ TidyMutes ids m.state.mutedPlayers := by
  refine h.invariant
    (fun m => TidyBans ids m.state.bannedPlayers ∧ TidyMutes ids m.state.mutedPlayers) ?_ ?_
  · rintro m ⟨faults, hm⟩
    rw [fileBacked_eq hm]
    exact ⟨tidyBans_loadBans _, tidyMutes_loadMutes _⟩
  · rintro m ⟨op, faults⟩ m' hm - hstep
    rcases moderation_step_cases hstep with hmove | hfailed
    · exact hmove.tidy hm
    · rw [hfailed.state]
      exact hm

/-- **Bans and mutes stay tidy.** Whatever is called and whatever fails, no restriction is listed
twice, no identity is muted twice, every mute mutes something, and a reader returns the lists as
they are. -/
theorem moderation_lists_tidy (h : Reachable (moderationSystem ids files) (fun _ _ => True) m) :
    TidyBans ids m.state.bannedPlayers ∧ TidyMutes ids m.state.mutedPlayers ∧
      loadBans ids m.state.bannedPlayers = m.state.bannedPlayers ∧
      loadMutes ids m.state.mutedPlayers = m.state.mutedPlayers := by
  obtain ⟨hbans, hmutes⟩ := reachable_tidy h
  exact ⟨hbans, hmutes, loadBans_of_tidy hbans, loadMutes_of_tidy hmutes⟩

/-! ### The restart -/

theorem Consistent.sameAnswers (h : Consistent ids m) :
    ModerationState.SameAnswers ids m.state (loadState ids m.files) := by
  intro identity
  have hany : ∀ {l l' : List Text}, (∀ v, v ∈ l ↔ v ∈ l') → ∀ p : Text → Bool,
      l'.any p = l.any p := by
    intro l l' hmem p
    rw [Bool.eq_iff_iff, List.any_eq_true, List.any_eq_true]
    simp only [hmem]
  refine ⟨?_, ?_, ?_, hany h.white _, hany h.black _⟩
  · unfold ModerationState.isUuidBanned
    rw [h.bans]
  · unfold ModerationState.isIpBanned
    rw [h.bans]
  · unfold ModerationState.muteState
    rw [h.mutes]

/-- A directory without faults can be opened. -/
theorem fileBacked_nil (files : ModerationFiles) :
    fileBacked ids files [] = some ⟨loadState ids files, filled ids files⟩ := by
  cases h : fileBacked ids files [] with
  | none =>
    obtain ⟨bans, mutes, white, black, legacyWhite, legacyBlack⟩ := files
    cases bans <;> cases mutes <;> cases white <;> cases black <;> cases h
  | some m => rw [fileBacked_eq h]

/-- **Moderation survives a restart.** In a run that adds only plain lines to the line lists, new
lists opened on the same directory give the same answers; and in every run an operation that fails
leaves the lists as they are. -/
theorem moderation_survives_restart (ids : Identities) (files : ModerationFiles)
    (hfiles : Readable files) :
    (∀ m, Reachable (moderationSystem ids files) (PlainAdds ids) m →
      ∃ m', fileBacked ids m.files [] = some m' ∧ m.state.SameAnswers ids m'.state) ∧
    ∀ m, Reachable (moderationSystem ids files) (fun _ _ => True) m →
      ∀ op faults e, (ModerationOp.run ids op m faults).1 = .error e →
        (ModerationOp.run ids op m faults).2.1.state = m.state := by
  constructor
  · intro m h
    exact ⟨_, fileBacked_nil m.files, (reachable_consistent hfiles h).sameAnswers⟩
  · intro m _ op faults e herror
    have hmeets := @meets_run ids op m m faults rfl
    generalize ModerationOp.run ids op m faults = result at herror hmeets
    obtain ⟨outcome, m', faults'⟩ := result
    cases herror
    exact hmeets.state

/-- The characters of a hyphenated UUID. -/
def uuidDigits : Text := "-0123456789abcdef".toList

/-- The form of a hyphenated UUID. -/
def isHyphenated (s : Text) : Bool :=
  s.length = 36 && s.all (fun c => uuidDigits.contains c) &&
    [8, 13, 18, 23].all fun i => s[i]? = some '-'

/-- The hyphenated spelling of a UUID in either case. -/
def parseHyphenated (s : Text) : Option Text :=
  if isHyphenated (s.map Char.toLower) then some (s.map Char.toLower) else none

theorem mem_uuidDigits (h : isHyphenated s = true) {c : Char} (hc : c ∈ s) : c ∈ uuidDigits := by
  unfold isHyphenated at h
  rw [Bool.and_eq_true, Bool.and_eq_true] at h
  exact List.contains_iff_mem.mp (List.all_eq_true.mp h.1.2 c hc)

theorem map_toLower_hyphenated (h : isHyphenated s = true) : s.map Char.toLower = s := by
  have hdigits : (uuidDigits.all fun c => c.toLower = c) = true := by decide
  refine (List.map_congr_left ?_).trans (List.map_id s)
  intro c hc
  exact of_decide_eq_true (List.all_eq_true.mp hdigits c (mem_uuidDigits h hc))

/-- Hyphenated UUIDs, and addresses that are in their normal form. -/
def hyphenatedIdentities : Identities where
  parseUuid := parseHyphenated
  normalizeIp := id
  parse_canonical := by
    intro s c h
    unfold parseHyphenated at h
    split at h
    · rename_i hform
      cases h
      unfold parseHyphenated
      rw [map_toLower_hyphenated hform, if_pos hform]
    · cases h
  canonical_digits := by
    intro s c h
    unfold parseHyphenated at h
    split at h
    · rename_i hform
      cases h
      have hdigits : (uuidDigits.all fun c => c.isAlphanum || c = '-') = true := by decide
      constructor
      · intro hnil
        rw [hnil] at hform
        cases hform
      · intro c hc
        have hdigit := List.all_eq_true.mp hdigits c (mem_uuidDigits hform hc)
        rw [Bool.or_eq_true, decide_eq_true_eq] at hdigit
        exact hdigit
    · cases h
  normalizeIp_idem := fun _ => rfl

def noFiles : ModerationFiles := ⟨none, none, none, none, none, none⟩

def playerUuid : Text := "3F2504E0-4F89-41D3-9A0C-0305E82C3301".toList

/-- A ban, a mute, an entry of the allow list, one that cannot be written, and a reload. -/
def moderationRun : List (ModerationOp × List Fault) :=
  [(.addBanWithDetails playerUuid "spam".toList (some "10.0.0.7".toList) "now".toList, []),
    (.setVoiceMute "did:key:z6Mk".toList true "now".toList, []),
    (.addWhitelist "did:key:z6Mk".toList, []),
    (.addBlacklist "did:key:z6Mq".toList, [.before]),
    (.reload, [])]

theorem moderation_survives_restart_run :
    ∃ m, Reachable (moderationSystem hyphenatedIdentities noFiles)
      (PlainAdds hyphenatedIdentities) m ∧
      (m.state.isUuidBanned hyphenatedIdentities (playerUuid.map Char.toLower) &&
        m.state.isWhitelisted hyphenatedIdentities "did:key:z6Mk".toList &&
        !m.state.isBlacklisted hyphenatedIdentities "did:key:z6Mq".toList) = true ∧
      ∃ m', fileBacked hyphenatedIdentities m.files [] = some m' ∧
        m.state.SameAnswers hyphenatedIdentities m'.state := by
  have hreadable : Readable noFiles := ⟨fun v hv => (nomatch hv), fun v hv => (nomatch hv)⟩
  have hstart : Reachable (moderationSystem hyphenatedIdentities noFiles)
      (PlainAdds hyphenatedIdentities) ⟨.empty, filled hyphenatedIdentities noFiles⟩ :=
    .init ⟨[], fileBacked_nil noFiles⟩
  have hadmits : Admits (moderationSystem hyphenatedIdentities noFiles)
      (PlainAdds hyphenatedIdentities) ⟨.empty, filled hyphenatedIdentities noFiles⟩
        moderationRun := by
    refine ⟨trivial, fun _ _ => ⟨trivial, fun _ _ => ⟨.inr ?_, fun _ _ => ⟨.inr ?_, fun _ _ =>
      ⟨trivial, fun _ _ => trivial⟩⟩⟩⟩⟩
    · decide +kernel
    · decide +kernel
  obtain ⟨m, hreach, hm⟩ := exists_reachable_of_run _ hadmits hstart (P := fun m =>
    m.state.isUuidBanned hyphenatedIdentities (playerUuid.map Char.toLower) &&
      m.state.isWhitelisted hyphenatedIdentities "did:key:z6Mk".toList &&
      !m.state.isBlacklisted hyphenatedIdentities "did:key:z6Mq".toList) (by decide +kernel)
  exact ⟨m, hreach, hm, (moderation_survives_restart _ _ hreadable).1 m hreach⟩

theorem moderation_lists_tidy_run :
    ∃ m : ModerationLists,
      m.state.isUuidBanned hyphenatedIdentities (playerUuid.map Char.toLower) = true ∧
      TidyBans hyphenatedIdentities m.state.bannedPlayers := by
  have hstart : Reachable (moderationSystem hyphenatedIdentities noFiles) (fun _ _ => True)
      ⟨.empty, filled hyphenatedIdentities noFiles⟩ := .init ⟨[], fileBacked_nil noFiles⟩
  have hbanned : (runActions (moderationSystem hyphenatedIdentities noFiles)
      ⟨.empty, filled hyphenatedIdentities noFiles⟩ moderationRun).any (fun m =>
        m.state.isUuidBanned hyphenatedIdentities (playerUuid.map Char.toLower)) = true := by
    decide +kernel
  obtain ⟨m, hreach, hm⟩ := exists_reachable_of_free_run hstart hbanned
  exact ⟨m, hm, (moderation_lists_tidy hreach).1⟩

/-- An identity that can be on the allow list and is not read back. -/
def Forgotten (v : Text) : Prop :=
  ∃ m m', Reachable (moderationSystem hyphenatedIdentities noFiles) (fun _ _ => True) m ∧
    m.state.isWhitelisted hyphenatedIdentities v = true ∧
    fileBacked hyphenatedIdentities m.files [] = some m' ∧
    m'.state.isWhitelisted hyphenatedIdentities v = false

/-- One call is enough for an identity to be forgotten. -/
theorem forgotten_of_run (h : (runActions (moderationSystem hyphenatedIdentities noFiles)
        ⟨.empty, filled hyphenatedIdentities noFiles⟩ [(.addWhitelist v, [])]).any (fun m =>
      m.state.isWhitelisted hyphenatedIdentities v &&
        !(loadState hyphenatedIdentities m.files).isWhitelisted hyphenatedIdentities v) = true) :
    Forgotten v := by
  have hstart : Reachable (moderationSystem hyphenatedIdentities noFiles) (fun _ _ => True)
      ⟨.empty, filled hyphenatedIdentities noFiles⟩ := .init ⟨[], fileBacked_nil noFiles⟩
  obtain ⟨m, hreach, hm⟩ := exists_reachable_of_free_run hstart h
  rw [Bool.and_eq_true, Bool.not_eq_true'] at hm
  exact ⟨m, _, hreach, hm.1, fileBacked_nil m.files, hm.2⟩

/-- A line feed, a blank in front, and a byte-order mark in front. -/
theorem allow_list_forgets :
    Forgotten "did:key:a\nb".toList ∧ Forgotten " did:key:a".toList ∧
      Forgotten (byteOrderMark :: "did:key:a".toList) := by
  refine ⟨forgotten_of_run ?_, forgotten_of_run ?_, forgotten_of_run ?_⟩
  · decide +kernel
  · decide +kernel
  · decide +kernel

end BasisRust.Moderation
