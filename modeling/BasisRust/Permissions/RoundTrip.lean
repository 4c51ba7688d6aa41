import BasisRust.Permissions.StoreFacts

/-!
# A saved store can be loaded

The written document is well formed, so the reader gives its pieces back.  Reading them puts the
entries in one by one, in the order of the keys.  `Renamed` is what is left of the store: nodes that
`migrate` knows by an older name have the new one.

The text is refused if one of the texts in the store has a character that XML does not allow;
nothing else goes wrong.
-/

namespace BasisRust.Permissions

open Library

variable {casing : Casing} {reader : XmlReader} {c : Char} {value key name : Text}
  {part : List Markup} {s : TextSet} {store : PermissionStore}

/-! ### Escaping -/

theorem escape_eq_flatMap (value : Text) : escape value = value.flatMap fun c => escape [c] := by
  have hreplace : ∀ (c : Char) (t : String) (f : Char → Text),
      replaceChar c t (value.flatMap f) = value.flatMap fun d => replaceChar c t (f d) :=
    fun c t f => List.flatMap_assoc
  have hsingle : value = value.flatMap fun c => [c] := by simp
  unfold escape
  conv_lhs => rw [hsingle]
  rw [hreplace, hreplace, hreplace, hreplace, hreplace, hreplace, hreplace]

theorem escape_cons (c : Char) (value : Text) :
    escape (c :: value) = escape [c] ++ escape value := by
  rw [escape_eq_flatMap, List.flatMap_cons, ← escape_eq_flatMap]

/-- The characters that are escaped. -/
def escapedChars : Text := ['&', '"', '<', '>', '\r', '\n', '\t']

theorem replaceChar_single {d : Char} (h : c ≠ d) (t : String) : replaceChar d t [c] = [c] := by
  unfold replaceChar
  rw [List.flatMap_cons, if_neg h, List.flatMap_nil, List.append_nil]

theorem escape_char (h : c ∉ escapedChars) : escape [c] = [c] := by
  simp only [escapedChars, List.mem_cons, List.not_mem_nil, or_false, not_or] at h
  obtain ⟨hamp, hquote, hless, hgreater, hcr, hlf, htab⟩ := h
  unfold escape
  rw [replaceChar_single hamp, replaceChar_single hquote, replaceChar_single hless,
    replaceChar_single hgreater, replaceChar_single hcr, replaceChar_single hlf,
    replaceChar_single htab]

/-- What holds of what the escaped characters become, and of all others, holds of an escaped
text. -/
theorem all_escape {p : Char → Bool}
    (hspecial : (escapedChars.all fun c => (escape [c]).all p) = true)
    (h : ∀ c ∈ value, c ∉ escapedChars → p c = true) : (escape value).all p = true := by
  rw [escape_eq_flatMap, List.all_flatMap, List.all_eq_true]
  intro c hc
  by_cases hmem : c ∈ escapedChars
  · exact List.all_eq_true.mp hspecial c hmem
  · show (escape [c]).all p = true
    rw [escape_char hmem, List.all_cons, h c hc hmem]
    rfl

theorem escape_proper (hkey : IsName key) : XmlAttribute.Proper ⟨key, escape value⟩ := by
  refine ⟨hkey, ?_⟩
  have hall : ((escape value).all fun c => c ≠ '"' && c ≠ '<' && c ≠ '>') = true := by
    refine all_escape (by decide) ?_
    intro c _ hc
    simp only [escapedChars, List.mem_cons, List.not_mem_nil, or_false, not_or] at hc
    simp [hc.2.1, hc.2.2.1, hc.2.2.2.1]
  intro c hc
  have hchar := List.all_eq_true.mp hall c hc
  simpa [and_assoc] using hchar

def isLegal (value : Text) : Bool := value.all isXmlChar

theorem isLegal_escape (value : Text) : isLegal (escape value) = isLegal value := by
  rw [Bool.eq_iff_iff]
  constructor
  · intro h
    refine List.all_eq_true.mpr ?_
    intro c hc
    by_cases hmem : c ∈ escapedChars
    · have hall : (escapedChars.all isXmlChar) = true := by decide
      exact List.all_eq_true.mp hall c hmem
    · have hin : c ∈ escape value := by
        rw [escape_eq_flatMap]
        refine List.mem_flatMap.mpr ⟨c, hc, ?_⟩
        rw [escape_char hmem]
        exact .head _
      exact List.all_eq_true.mp h c hin
  · intro h
    refine all_escape (by decide) ?_
    intro c hc _
    exact List.all_eq_true.mp h c hc

/-! ### The document -/

/-- The tags that are written. -/
def Tag.known : Tag → Bool
  | .other _ => false
  | _ => true

variable {tag : Tag}

theorem Tag.isName (h : tag.known = true) : IsName tag.name := by
  have hname : ∀ s : Text, (!s.isEmpty && s.all Char.isAlphanum) = true → IsName s := by
    intro s hs
    rw [Bool.and_eq_true, Bool.not_eq_true', List.isEmpty_eq_false_iff, List.all_eq_true] at hs
    exact ⟨hs.1, hs.2⟩
  cases tag with
  | other name => cases h
  | _ => exact hname _ (by decide)

theorem nameAttribute_isName : IsName nameAttribute :=
  ⟨by decide, List.all_eq_true.mp (by decide)⟩

theorem uuidAttribute_isName : IsName uuidAttribute :=
  ⟨by decide, List.all_eq_true.mp (by decide)⟩

theorem valueAttribute_isName : IsName valueAttribute :=
  ⟨by decide, List.all_eq_true.mp (by decide)⟩

theorem isLegal_append (s t : Text) : isLegal (s ++ t) = (isLegal s && isLegal t) := List.all_append

theorem isLegal_isName (h : IsName name) : isLegal name = true := by
  refine List.all_eq_true.mpr ?_
  intro c hc
  have halphanum := toNat_of_alphanum (h.alphanum c hc)
  simp only [isXmlChar, Bool.or_eq_true, Bool.and_eq_true, decide_eq_true_eq]
  omega

theorem isLegal_attribute (hkey : IsName key) (value : Text) :
    isLegal (Markup.renderAttribute ⟨key, escape value⟩) = isLegal value := by
  have hshape : Markup.renderAttribute ⟨key, escape value⟩ =
      [' '] ++ key ++ ['=', '"'] ++ escape value ++ ['"'] := by
    simp [Markup.renderAttribute]
  have hblank : isLegal [' '] = true := by decide
  have hequal : isLegal ['=', '"'] = true := by decide
  have hquote : isLegal ['"'] = true := by decide
  rw [hshape, isLegal_append, isLegal_append, isLegal_append, isLegal_append, hblank,
    hequal, hquote, isLegal_isName hkey, isLegal_escape, Bool.true_and, Bool.true_and,
    Bool.true_and, Bool.and_true]

/-- A part of a document that is proper and leaves no element open; `legal` says whether the reader
allows all its characters. -/
structure GoodPart (legal : Bool) (part : List Markup) : Prop where
  proper : ∀ m ∈ part, m.Proper
  closed : Markup.Closed part
  chars : isLegal (part.flatMap Markup.render) = legal

theorem GoodPart.append {legal legal' : Bool} {part' : List Markup} (h : GoodPart legal part)
    (h' : GoodPart legal' part') : GoodPart (legal && legal') (part ++ part') := by
  refine ⟨fun m hm => (List.mem_append.mp hm).elim (h.proper m) (h'.proper m),
    h.closed.append h'.closed, ?_⟩
  rw [List.flatMap_append, isLegal_append, h.chars, h'.chars]

variable {α : Type}

theorem GoodPart.flatMap {l : List α} {f : α → List Markup} {legal : α → Bool}
    (h : ∀ x ∈ l, GoodPart (legal x) (f x)) : GoodPart (l.all legal) (l.flatMap f) := by
  induction l with
  | nil => exact ⟨fun _ hm => (nomatch hm), .nil, rfl⟩
  | cons x l ih =>
    rw [List.flatMap_cons, List.all_cons]
    exact (h x (.head _)).append (ih fun y hy => h y (.tail _ hy))

theorem GoodPart.space {s : Text} (h : (s.all fun c => c = ' ' || c = '\n') = true) :
    GoodPart true [.space s] := by
  have hchars : ∀ c ∈ s, isWhitespace c = true ∧ isXmlChar c = true := by
    intro c hc
    have hchar := List.all_eq_true.mp h c hc
    rw [Bool.or_eq_true, decide_eq_true_eq, decide_eq_true_eq] at hchar
    rcases hchar with rfl | rfl
    · decide
    · decide
  refine ⟨?_, .space s, ?_⟩
  · intro m hm
    rw [List.mem_singleton.mp hm]
    exact fun c hc => (hchars c hc).1
  · show isLegal (s ++ []) = true
    rw [List.append_nil]
    exact List.all_eq_true.mpr fun c hc => (hchars c hc).2

theorem isLegal_brackets (body : Text) : isLegal ('<' :: body ++ ['>']) = isLegal body := by
  have hopen : isLegal ['<'] = true := by decide
  have hclose : isLegal ['>'] = true := by decide
  show isLegal (['<'] ++ body ++ ['>']) = isLegal body
  rw [isLegal_append, isLegal_append, hopen, hclose, Bool.true_and, Bool.and_true]

/-- An element with at most one attribute around a part. -/
theorem GoodPart.element {legal : Bool} (h : GoodPart legal part) (hname : IsName name)
    {attrib : Option XmlAttribute} (hattrib : ∀ a ∈ attrib, a.Proper) :
    GoodPart (isLegal (attrib.elim [] Markup.renderAttribute) && legal)
      (.start name attrib :: part ++ [.stop name]) := by
  refine ⟨?_, h.closed.element name attrib, ?_⟩
  · intro m hm
    rcases List.mem_append.mp hm with hm | hm
    · rcases List.mem_cons.mp hm with rfl | hm
      · exact ⟨hname, hattrib⟩
      · exact h.proper m hm
    · rw [List.mem_singleton.mp hm]
      exact hname
  · have hstart : isLegal (Markup.start name attrib).render =
        isLegal (attrib.elim [] Markup.renderAttribute) := by
      show isLegal ('<' :: (name ++ attrib.elim [] Markup.renderAttribute) ++ ['>']) = _
      rw [isLegal_brackets, isLegal_append, isLegal_isName hname, Bool.true_and]
    have hstop : isLegal ([Markup.stop name].flatMap Markup.render) = true := by
      show isLegal ('<' :: ('/' :: name) ++ ['>'] ++ []) = true
      have hslash : isLegal ['/'] = true := by decide
      rw [List.append_nil, isLegal_brackets, ← List.singleton_append, isLegal_append, hslash,
        isLegal_isName hname]
      rfl
    rw [List.flatMap_append, List.flatMap_cons, isLegal_append, isLegal_append, hstart, hstop,
      h.chars, Bool.and_true]

theorem GoodPart.empty (hname : IsName name) (hkey : IsName key) (value : Text) :
    GoodPart (isLegal value) [.empty name ⟨key, escape value⟩] := by
  refine ⟨?_, .empty _ _, ?_⟩
  · intro m hm
    rw [List.mem_singleton.mp hm]
    exact ⟨hname, escape_proper hkey⟩
  · have hslash : isLegal [' ', '/'] = true := by decide
    show isLegal
      ('<' :: (name ++ Markup.renderAttribute ⟨key, escape value⟩ ++ [' ', '/']) ++ ['>'] ++
      []) = _
    rw [List.append_nil, isLegal_brackets, isLegal_append, isLegal_append, isLegal_isName hname,
      isLegal_attribute hkey, hslash, Bool.true_and, Bool.and_true]

theorem writeSet_good (htag : tag.known = true) {attrib : Text} (hattrib : IsName attrib)
    (set : TextSet) : GoodPart (set.keys.all isLegal) (writeSet tag attrib set) := by
  refine .flatMap fun value _ => ?_
  have hpart := (GoodPart.space (s := "      ".toList) (by decide)).append
    ((GoodPart.empty (Tag.isName htag) hattrib value).append (.space (s := ['\n']) (by decide)))
  rw [Bool.true_and, Bool.and_true] at hpart
  exact hpart

section

variable {legal : Bool} {content : List Markup}
  (h : GoodPart legal content) (htag : tag.known = true)
include h htag

/-- An element with its start and its end in lines of their own. -/
theorem lines_good (attrib : Option XmlAttribute) (hattrib : ∀ a ∈ attrib, a.Proper)
    (indent : String) (hindent : (indent.toList.all fun c => c = ' ' || c = '\n') = true) :
    GoodPart (isLegal (attrib.elim [] Markup.renderAttribute) && legal)
      (line indent (.start tag.name attrib) ++ content ++ line indent (.stop tag.name)) := by
  have hfeed : GoodPart true [.space ['\n']] := .space (by decide)
  have hspace : GoodPart true [.space indent.toList] := .space hindent
  have hinner := ((hfeed.append h).append hspace).element (Tag.isName htag) hattrib
  have hall := (hspace.append hinner).append hfeed
  simpa [line] using hall

theorem writeElement_good {attrib : Text} (hattrib : IsName attrib) (name : Text) :
    GoodPart (isLegal name && legal) (writeElement tag attrib name content) := by
  have hlines := lines_good h htag (some ⟨attrib, escape name⟩)
    (fun a ha => Option.some.inj ha ▸ escape_proper hattrib) "    " (by decide)
  rw [Option.elim_some, isLegal_attribute hattrib] at hlines
  exact hlines

theorem writeSection_good : GoodPart legal (writeSection tag content) :=
  lines_good h htag none nofun "  " (by decide)

end

theorem writeGroup_good (group : PermissionGroup) :
    GoodPart
      (isLegal group.name && (group.parents.keys.all isLegal && group.nodes.keys.all isLegal))
      (writeGroup group) :=
  writeElement_good ((writeSet_good rfl nameAttribute_isName _).append
    (writeSet_good rfl valueAttribute_isName _)) rfl nameAttribute_isName _

theorem writeUser_good (user : PermissionUser) :
    GoodPart (isLegal user.uuid && (user.groups.keys.all isLegal && user.nodes.keys.all isLegal))
      (writeUser user) :=
  writeElement_good ((writeSet_good rfl nameAttribute_isName _).append
    (writeSet_good rfl valueAttribute_isName _)) rfl uuidAttribute_isName _

theorem writeSeeded_good (seeded : Text × TextSet) :
    GoodPart (isLegal seeded.1 && seeded.2.keys.all isLegal) (writeSeeded seeded) :=
  writeElement_good (writeSet_good rfl valueAttribute_isName _) rfl nameAttribute_isName _

/-- No text in the store has a character that XML does not allow. -/
def PermissionStore.isLegal (store : PermissionStore) : Bool :=
  (store.groups.entries.all fun x => Permissions.isLegal x.2.name &&
      (x.2.parents.keys.all Permissions.isLegal && x.2.nodes.keys.all Permissions.isLegal)) &&
    (store.users.entries.all fun x => Permissions.isLegal x.2.uuid &&
      (x.2.groups.keys.all Permissions.isLegal && x.2.nodes.keys.all Permissions.isLegal)) &&
    store.seededDefaults.entries.all fun x => Permissions.isLegal x.1 &&
      x.2.keys.all Permissions.isLegal

theorem permissionsDocument_good (store : PermissionStore) :
    GoodPart store.isLegal (permissionsDocument store) := by
  have hfeed : GoodPart true [.space ['\n']] := .space (by decide)
  have hgroups := writeSection_good (GoodPart.flatMap (l :=
    (store.groups.entries.map Prod.snd).insertionSort fun a b => a.name ≤ b.name)
    fun group _ => writeGroup_good group) (show Tag.groups.known = true from rfl)
  have husers := writeSection_good (GoodPart.flatMap (l :=
    (store.users.entries.map Prod.snd).insertionSort fun a b => a.uuid ≤ b.uuid)
    fun user _ => writeUser_good user) (show Tag.users.known = true from rfl)
  have hseeded := writeSection_good (GoodPart.flatMap (l := store.seededDefaults.entries)
    fun seeded _ => writeSeeded_good seeded) (show Tag.seededDefaults.known = true from rfl)
  rw [(List.perm_insertionSort _ _).all_eq, List.all_map] at hgroups husers
  have hroot := ((hfeed.append ((hgroups.append husers).append hseeded))).element
    (Tag.isName (show Tag.permissions.known = true from rfl))
    (show ∀ a ∈ (none : Option XmlAttribute), a.Proper from nofun)
  have hdecl : GoodPart true [.decl] := by
    refine ⟨?_, fun _ _ h => h, by decide⟩
    intro m hm
    rw [List.mem_singleton.mp hm]
    trivial
  have hall := (hdecl.append hfeed).append (hroot.append hfeed)
  have hnil : isLegal [] = true := rfl
  simp only [List.append_assoc, List.cons_append, List.nil_append, Option.elim_none, hnil,
    Bool.true_and, Bool.and_true] at hall
  simp only [permissionsDocument, List.append_assoc, List.cons_append, List.nil_append]
  exact hall

/-! ### Reading the document -/

/-- White space does nothing. -/
theorem readAll_filter (events : List XmlEvent) : ∀ st : ParseState,
    readAll casing reader st events =
      readAll casing reader st (events.filter fun e => !e.isSpace) := by
  induction events with
  | nil => exact fun _ => rfl
  | cons e events ih =>
    intro st
    rw [List.filter_cons]
    cases hspace : e.isSpace with
    | false =>
      show (readEvent casing reader st e >>= fun st => readAll casing reader st events) =
        (readEvent casing reader st e >>= fun st =>
          readAll casing reader st (events.filter fun e => !e.isSpace))
      exact congrArg (readEvent casing reader st e >>= ·) (funext ih)
    | true =>
      have hread : readEvent casing reader st e = .ok st := by
        cases e with
        | text content => exact if_pos hspace
        | _ => cases hspace
      show (readEvent casing reader st e >>= fun st => readAll casing reader st events) = _
      rw [hread]
      exact ih st

/-- Reading a part of a document leads from one state to another. -/
def Reads (casing : Casing) (reader : XmlReader) (st : ParseState) (part : List Markup)
    (st' : ParseState) : Prop :=
  readAll casing reader st (part.filterMap Markup.event) = .ok st'

theorem Reads.append {st st' st'' : ParseState} {part' : List Markup}
    (h : Reads casing reader st part st') (h' : Reads casing reader st' part' st'') :
    Reads casing reader st (part ++ part') st'' := by
  unfold Reads readAll at *
  rw [List.filterMap_append, List.foldlM_append, h]
  exact h'

theorem Reads.line {st st' : ParseState} {indent : String} {m : Markup} {event : XmlEvent}
    (hevent : m.event = some event) (h : readEvent casing reader st event = .ok st') :
    Reads casing reader st (line indent m) st' := by
  have hfilter : (Permissions.line indent m).filterMap Markup.event = [event] := by
    unfold Permissions.line
    rw [List.filterMap_cons_none rfl, List.filterMap_cons_some hevent, List.filterMap_cons_none rfl]
    rfl
  unfold Reads
  rw [hfilter]
  show (readEvent casing reader st event >>= fun st => .ok st) = .ok st'
  rw [h]
  rfl

/-- Lines that are read one by one. -/
theorem Reads.flatMap {β : Type} {view : β → ParseState} {write : α → List Markup}
    {next : β → α → β} {l : List α}
    (h : ∀ b, ∀ x ∈ l, Reads casing reader (view b) (write x) (view (next b x))) :
    ∀ b, Reads casing reader (view b) (l.flatMap write) (view (l.foldl next b)) := by
  induction l with
  | nil => exact fun b => rfl
  | cons x l ih =>
    intro b
    rw [List.flatMap_cons, List.foldl_cons]
    exact (h b x (.head _)).append (ih (fun b y hy => h b y (.tail _ hy)) _)

theorem readAttributes_escape (key value : Text) :
    readAttributes reader [some ⟨key, escape value⟩] [] = .ok [(key, value)] := by
  have hless : '<' ∉ escape value := by
    have hall : ((escape value).all fun c => c ≠ '<') = true := by
      refine all_escape (by decide) ?_
      intro c _ hc
      simp only [escapedChars, List.mem_cons, List.not_mem_nil, or_false, not_or] at hc
      simp [hc.2.2.1]
    intro hmem
    exact of_decide_eq_true (List.all_eq_true.mp hall _ hmem) rfl
  rw [readAttributes, if_neg hless, reader.decodes]
  rfl

theorem readAttribute_self (h : isBlank value = false) (key : Text) :
    readAttribute tag [(key, value)] key = .ok value := by
  have hget : assocGet key [(key, value)] = some value := by
    simp [assocGet]
  unfold readAttribute
  rw [hget]
  exact if_neg (by rw [h]; exact Bool.false_ne_true)

theorem Tag.ofName_name (h : tag.known = true) : Tag.ofName tag.name = tag := by
  cases tag with
  | other name => cases h
  | _ => decide

theorem updateOwner_insert (m : OrderedMap Text α) (k : Text) (x : α) (f : α → α) :
    updateOwner (m.insert k x) k f = .ok (m.insert k (f x)) := by
  unfold updateOwner update
  rw [OrderedMap.get_insert_self]
  exact congrArg Except.ok (OrderedMap.insert_insert m k x (f x))

/-- The loop after the declaration and the root. -/
def openAt (stack : List Frame) (store : PermissionStore) : ParseState := ⟨true, store, stack, true⟩

def sectionStack (tag : Tag) : List Frame := [⟨tag, none⟩, ⟨.permissions, none⟩]

def ownerStack (tag owner : Tag) (k : Text) : List Frame := ⟨owner, some k⟩ :: sectionStack tag

section

variable (store : PermissionStore) {st : ParseState} {v name : Text}

/-- Inside an element of a user. -/
def atUser (u : PermissionUser) : ParseState :=
  openAt (ownerStack .users .user u.uuid) { store with users := store.users.insert u.uuid u }

/-- Inside an element of a group. -/
def atGroup (g : PermissionGroup) : ParseState :=
  openAt (ownerStack .groups .group g.name) { store with groups := store.groups.insert g.name g }

/-- Inside an element of the history. -/
def atSeeded (name : Text) (s : TextSet) : ParseState :=
  openAt (ownerStack .seededDefaults .group name)
    { store with seededDefaults := store.seededDefaults.insert name s }

variable {store}

/-- An empty element inside another one. -/
theorem readEvent_empty {tag : Tag} (htag : tag.known = true) (attrib v : Text) :
    readEvent casing reader st (.empty tag.name [some ⟨attrib, escape v⟩]) =
      (startElement casing reader tag [some ⟨attrib, escape v⟩] st >>= fun r => .ok r.2) := by
  show (startElement casing reader (Tag.ofName tag.name) _ st >>= _) = _
  rw [Tag.ofName_name htag]

theorem readEvent_userGroup (u : PermissionUser) (h : isBlank v = false) :
    readEvent casing reader (atUser store u)
      (.empty Tag.group.name [some ⟨nameAttribute, escape v⟩]) =
      .ok (atUser store { u with groups := insert casing u.groups (trim v) }) := by
  rw [readEvent_empty rfl]
  simp [startElement, readAttributes_escape, readAttribute_self h, atUser, openAt, ownerStack,
    sectionStack, ownerKey, updateOwner_insert, bind, Except.bind]

theorem readEvent_userNode (u : PermissionUser) (h : isBlank v = false) :
    readEvent casing reader (atUser store u)
      (.empty Tag.node.name [some ⟨valueAttribute, escape v⟩]) =
      .ok (atUser store { u with nodes := insert casing u.nodes (migrate casing (trim v)) }) := by
  rw [readEvent_empty rfl]
  simp [startElement, readAttributes_escape, readAttribute_self h, atUser, openAt, ownerStack,
    sectionStack, ownerKey, insertNode, updateOwner_insert, bind, Except.bind]

theorem readEvent_groupParent (g : PermissionGroup) (h : isBlank v = false) :
    readEvent casing reader (atGroup store g)
        (.empty Tag.parent.name [some ⟨nameAttribute, escape v⟩]) =
      .ok (atGroup store { g with parents := insert casing g.parents (trim v) }) := by
  rw [readEvent_empty rfl]
  simp [startElement, readAttributes_escape, readAttribute_self h, atGroup, openAt, ownerStack,
    sectionStack, ownerKey, updateOwner_insert, bind, Except.bind]

theorem readEvent_groupNode (g : PermissionGroup) (h : isBlank v = false) :
    readEvent casing reader (atGroup store g)
        (.empty Tag.node.name [some ⟨valueAttribute, escape v⟩]) =
      .ok (atGroup store { g with nodes := insert casing g.nodes (migrate casing (trim v)) }) := by
  rw [readEvent_empty rfl]
  simp [startElement, readAttributes_escape, readAttribute_self h, atGroup, openAt, ownerStack,
    sectionStack, ownerKey, insertNode, updateOwner_insert, bind, Except.bind]

theorem readEvent_seededNode (name : Text) (s : TextSet) (h : isBlank v = false) :
    readEvent casing reader (atSeeded store name s)
        (.empty Tag.node.name [some ⟨valueAttribute, escape v⟩]) =
      .ok (atSeeded store name (insert casing s (migrate casing (trim v)))) := by
  rw [readEvent_empty rfl]
  simp [startElement, readAttributes_escape, readAttribute_self h, atSeeded, openAt, ownerStack,
    sectionStack, ownerKey, insertNode, updateOwner_insert, bind, Except.bind]

theorem readEvent_start {tag : Tag} (htag : tag.known = true)
    (attributes : List (Option XmlAttribute)) :
    readEvent casing reader st (.start tag.name attributes) =
      (startElement casing reader tag attributes st >>= fun r =>
        .ok { r.2 with stack := r.1 :: r.2.stack }) := by
  show (startElement casing reader (Tag.ofName tag.name) _ st >>= _) = _
  rw [Tag.ofName_name htag]

theorem readEvent_stop {tag : Tag} (htag : tag.known = true) (identity : Option Text)
    (stack : List Frame) :
    readEvent casing reader (openAt (⟨tag, identity⟩ :: stack) store) (.stop tag.name) =
      .ok (openAt stack store) := by
  show (if Tag.ofName tag.name = tag then _ else _) = _
  rw [if_pos (Tag.ofName_name htag)]
  rfl

theorem readEvent_startUser {uuid : Text} (hblank : isBlank uuid = false)
    (hnew : ∀ k ∈ store.users.keys, same casing k uuid = false) :
    readEvent casing reader (openAt (sectionStack .users) store)
        (.start Tag.user.name [some ⟨uuidAttribute, escape uuid⟩]) =
      .ok (atUser store ⟨uuid, OrderedMap.empty, OrderedMap.empty⟩) := by
  rw [readEvent_start rfl]
  simp [startElement, readAttributes_escape, readAttribute_self hblank, atUser, openAt, ownerStack,
    sectionStack, replaceEntry, key_eq_none hnew, bind, Except.bind]

theorem readEvent_startGroup (hblank : isBlank name = false)
    (hnew : ∀ k ∈ store.groups.keys, same casing k name = false) :
    readEvent casing reader (openAt (sectionStack .groups) store)
        (.start Tag.group.name [some ⟨nameAttribute, escape name⟩]) =
      .ok (atGroup store ⟨name, OrderedMap.empty, OrderedMap.empty⟩) := by
  rw [readEvent_start rfl]
  simp [startElement, readAttributes_escape, readAttribute_self hblank, atGroup, openAt, ownerStack,
    sectionStack, replaceEntry, key_eq_none hnew, bind, Except.bind]

theorem readEvent_startSeeded (hblank : isBlank name = false)
    (hnew : ∀ k ∈ store.seededDefaults.keys, same casing k name = false) :
    readEvent casing reader (openAt (sectionStack .seededDefaults) store)
        (.start Tag.group.name [some ⟨nameAttribute, escape name⟩]) =
      .ok (atSeeded store name OrderedMap.empty) := by
  have hget : store.seededDefaults.get name = none := by
    cases hget : store.seededDefaults.get name with
    | none => rfl
    | some s =>
      have hsame := hnew name (OrderedMap.mem_keys.mpr ⟨s, hget⟩)
      rw [same_refl] at hsame
      cases hsame
  rw [readEvent_start rfl]
  simp [startElement, readAttributes_escape, readAttribute_self hblank, atSeeded, openAt,
    ownerStack, sectionStack, key_eq_none hnew, hget, bind, Except.bind]

variable (casing reader) in
theorem reads_writeSet (view : TextSet → ParseState) (next : Text → Text) {tag : Tag}
    {attrib : Text} {set : TextSet} (h : ∀ s, ∀ v ∈ set.keys, readEvent casing reader (view s)
      (.empty tag.name [some ⟨attrib, escape v⟩]) =
        .ok (view (insert casing s (next v)))) (s : TextSet) :
    Reads casing reader (view s) (writeSet tag attrib set)
      (view (set.keys.foldl (fun s v => insert casing s (next v)) s)) :=
  Reads.flatMap (fun s v hv => .line rfl (h s v hv)) s

/-- An element, its content and its end. -/
theorem reads_writeElement {st₁ st₂ st₃ : ParseState} {tag : Tag} {attrib : Text}
    {content : List Markup}
    (hstart : readEvent casing reader st (.start tag.name [some ⟨attrib, escape name⟩]) = .ok st₁)
    (hcontent : Reads casing reader st₁ content st₂)
    (hstop : readEvent casing reader st₂ (.stop tag.name) = .ok st₃) :
    Reads casing reader st (writeElement tag attrib name content) st₃ :=
  ((Reads.line rfl hstart).append hcontent).append (.line rfl hstop)

end

/-! ### What is read -/

/-- Nodes under the names they have now. -/
def renamedNodes (casing : Casing) (nodes : TextSet) : TextSet :=
  nodes.keys.foldl (fun s v => insert casing s (migrate casing v)) OrderedMap.empty

def PermissionUser.renamed (casing : Casing) (u : PermissionUser) : PermissionUser :=
  { u with nodes := renamedNodes casing u.nodes }

def PermissionGroup.renamed (casing : Casing) (g : PermissionGroup) : PermissionGroup :=
  { g with nodes := renamedNodes casing g.nodes }

def PermissionStore.renamed (casing : Casing) (store : PermissionStore) : PermissionStore where
  users := store.users.mapValues (PermissionUser.renamed casing)
  groups := store.groups.mapValues (PermissionGroup.renamed casing)
  seededDefaults := store.seededDefaults.mapValues (renamedNodes casing)

variable {ok : Text → Prop} {m : OrderedMap Text α}

/-- Members that are distinct are put in as they are. -/
theorem foldl_insert_distinct {l : List Text} (hl : l.Pairwise fun a b => same casing a b = false) :
    ∀ s : TextSet, (∀ a ∈ s.keys, ∀ b ∈ l, same casing a b = false) →
      l.foldl (insert casing) s = l.foldl (fun s v => OrderedMap.insert s v ()) s := by
  induction l with
  | nil => exact fun _ _ => rfl
  | cons v l ih =>
    intro s hs
    obtain ⟨hv, hl⟩ := List.pairwise_cons.mp hl
    have hnew : contains casing s v = false := by
      refine eq_false_of_ne_true fun hcontains => ?_
      obtain ⟨a, ha, hsame⟩ := contains_iff.mp hcontains
      rw [hs a ha v (.head _)] at hsame
      cases hsame
    have hinsert : insert casing s v = OrderedMap.insert s v () := by
      unfold insert
      rw [hnew]
      rfl
    rw [List.foldl_cons, List.foldl_cons, hinsert]
    apply ih hl
    intro a ha b hb
    rcases mem_keys_insert.mp ha with rfl | ha
    · exact hv b hb
    · exact hs a ha b (.tail _ hb)

/-- The keys of a map one after the other are all different, also without regard to case. -/
theorem CaseDistinct.pairwise (h : CaseDistinct casing m.keys) :
    m.keys.Pairwise fun a b => same casing a b = false := by
  have hnodup : m.keys.Nodup := m.nodup
  refine hnodup.imp_of_mem ?_
  intro a b ha hb hne
  exact eq_false_of_ne_true fun hsame => hne (h a ha b hb hsame)

theorem mapValues_id (m : OrderedMap Text α) : m.mapValues id = m := by
  apply OrderedMap.ext_get
  intro k
  rw [OrderedMap.get_mapValues, Option.map_id_fun, id]

/-- A set that is read member by member. -/
theorem foldl_insert_keys (h : CaseDistinct casing s.keys) :
    s.keys.foldl (insert casing) OrderedMap.empty = s := by
  rw [foldl_insert_distinct h.pairwise _ fun _ ha => absurd ha List.not_mem_nil]
  show (s.entries.map Prod.fst).foldl _ _ = s
  rw [List.foldl_map]
  exact (OrderedMap.foldl_insert id s).trans (mapValues_id s)

theorem ProperSet.foldl_trim (h : ProperSet casing ok s) :
    s.keys.foldl (fun acc v => Permissions.insert casing acc (trim v)) OrderedMap.empty = s := by
  refine (List.foldl_ext _ _ _ ?_).trans (foldl_insert_keys h.distinct)
  intro acc v hv
  rw [(h.proper v hv).trimmed]

theorem ProperSet.foldl_migrate (h : ProperSet casing ok s) :
    s.keys.foldl (fun acc v => Permissions.insert casing acc (migrate casing (trim v)))
      OrderedMap.empty = renamedNodes casing s := by
  refine List.foldl_ext _ _ _ ?_
  intro acc v hv
  rw [(h.proper v hv).trimmed]

/-! ### Entries -/

section

variable {store : PermissionStore}

theorem ProperText.not_blank {v : Text} (h : ProperText ok v) : isBlank v = false := h.key.blank

theorem reads_writeUser {u : PermissionUser} (hblank : isBlank u.uuid = false)
    (hu : ProperUser casing ok u.uuid u)
    (hnew : ∀ k ∈ store.users.keys, same casing k u.uuid = false) :
    Reads casing reader (openAt (sectionStack .users) store) (writeUser u)
      (openAt (sectionStack .users)
        { store with users := store.users.insert u.uuid (u.renamed casing) }) := by
  have hgroups :=
    reads_writeSet casing reader (fun s => atUser store ⟨u.uuid, OrderedMap.empty, s⟩) trim
    (fun s v hv => readEvent_userGroup _ (hu.groups.proper v hv).not_blank) OrderedMap.empty
  have hnodes := reads_writeSet casing reader (fun s => atUser store ⟨u.uuid, s, u.groups⟩)
    (fun v => migrate casing (trim v))
    (fun s v hv => readEvent_userNode _ (hu.nodes.proper v hv).not_blank) OrderedMap.empty
  rw [hu.groups.foldl_trim] at hgroups
  rw [hu.nodes.foldl_migrate] at hnodes
  exact reads_writeElement (readEvent_startUser hblank hnew) (hgroups.append hnodes)
    (readEvent_stop rfl _ _)

theorem reads_writeGroup {g : PermissionGroup} (hblank : isBlank g.name = false)
    (hg : ProperGroup casing ok g.name g)
    (hnew : ∀ k ∈ store.groups.keys, same casing k g.name = false) :
    Reads casing reader (openAt (sectionStack .groups) store) (writeGroup g)
      (openAt (sectionStack .groups)
        { store with groups := store.groups.insert g.name (g.renamed casing) }) := by
  have hparents :=
    reads_writeSet casing reader (fun s => atGroup store ⟨g.name, OrderedMap.empty, s⟩) trim
    (fun s v hv => readEvent_groupParent _ (hg.parents.proper v hv).not_blank) OrderedMap.empty
  have hnodes := reads_writeSet casing reader (fun s => atGroup store ⟨g.name, s, g.parents⟩)
    (fun v => migrate casing (trim v))
    (fun s v hv => readEvent_groupNode _ (hg.nodes.proper v hv).not_blank) OrderedMap.empty
  rw [hg.parents.foldl_trim] at hparents
  rw [hg.nodes.foldl_migrate] at hnodes
  exact reads_writeElement (readEvent_startGroup hblank hnew) (hparents.append hnodes)
    (readEvent_stop rfl _ _)

theorem reads_writeSeeded {x : Text × TextSet} (hblank : isBlank x.1 = false)
    (hx : ProperSet casing ok x.2)
    (hnew : ∀ k ∈ store.seededDefaults.keys, same casing k x.1 = false) :
    Reads casing reader (openAt (sectionStack .seededDefaults) store) (writeSeeded x)
      (openAt (sectionStack .seededDefaults)
        { store with seededDefaults :=
          store.seededDefaults.insert x.1 (renamedNodes casing x.2) }) := by
  have hnodes :=
    reads_writeSet casing reader (atSeeded store x.1) (fun v => migrate casing (trim v))
    (fun s v hv => readEvent_seededNode _ _ (hx.proper v hv).not_blank) OrderedMap.empty
  rw [hx.foldl_migrate] at hnodes
  exact reads_writeElement (readEvent_startSeeded hblank hnew) hnodes (readEvent_stop rfl _ _)

/-- Entries with keys of their own are put in one by one. -/
theorem Reads.entries {α β : Type} {view : OrderedMap Text β → ParseState}
    {write : Text × α → List Markup} {f : α → β} {l : List (Text × α)}
    (h : ∀ m, ∀ x ∈ l, (∀ k ∈ m.keys, same casing k x.1 = false) →
      Reads casing reader (view m) (write x) (view (m.insert x.1 (f x.2))))
    (hl : (l.map Prod.fst).Pairwise fun a b => same casing a b = false) :
    ∀ m, (∀ k ∈ m.keys, ∀ x ∈ l, same casing k x.1 = false) →
      Reads casing reader (view m) (l.flatMap write)
        (view (l.foldl (fun n x => n.insert x.1 (f x.2)) m)) := by
  induction l with
  | nil => exact fun m _ => rfl
  | cons x l ih =>
    intro m hm
    obtain ⟨hx, hl⟩ := List.pairwise_cons.mp hl
    rw [List.flatMap_cons, List.foldl_cons]
    refine (h m x (.head _) fun k hk => hm k hk x (.head _)).append ?_
    refine ih (fun m y hy => h m y (.tail _ hy)) hl _ ?_
    intro k hk y hy
    rcases mem_keys_insert.mp hk with rfl | hk
    · exact hx y.1 (List.mem_map_of_mem hy)
    · exact hm k hk y (.tail _ hy)

variable (reader) in
/-- The entries of a map, read into an empty one. -/
theorem reads_map {α β : Type} {P : Text → α → Prop} (view : OrderedMap Text β → ParseState)
    (write : Text × α → List Markup) (f : α → β) {m : OrderedMap Text α}
    (hm : ProperMap casing ok P m)
    (h : ∀ n, ∀ x ∈ m.entries, (∀ k ∈ n.keys, same casing k x.1 = false) →
      Reads casing reader (view n) (write x) (view (n.insert x.1 (f x.2)))) :
    Reads casing reader (view OrderedMap.empty) (m.entries.flatMap write)
      (view (m.mapValues f)) := by
  have hall := Reads.entries h hm.distinct.pairwise OrderedMap.empty
    nofun
  rw [OrderedMap.foldl_insert] at hall
  exact hall

/-- A section and what is in it. -/
theorem reads_writeSection {store' : PermissionStore} {tag : Tag} {content : List Markup}
    (htag : tag = .groups ∨ tag = .users ∨ tag = .seededDefaults)
    (h : Reads casing reader (openAt (sectionStack tag) store) content
      (openAt (sectionStack tag) store')) :
    Reads casing reader (openAt [⟨.permissions, none⟩] store) (writeSection tag content)
      (openAt [⟨.permissions, none⟩] store') := by
  have hstart : readEvent casing reader (openAt [⟨.permissions, none⟩] store) (.start tag.name []) =
      .ok (openAt (sectionStack tag) store) := by
    rcases htag with rfl | rfl | rfl
    · rw [readEvent_start rfl]; rfl
    · rw [readEvent_start rfl]; rfl
    · rw [readEvent_start rfl]; rfl
  have hstop : readEvent casing reader (openAt (sectionStack tag) store') (.stop tag.name) =
      .ok (openAt [⟨.permissions, none⟩] store') := by
    rcases htag with rfl | rfl | rfl
    · exact readEvent_stop rfl _ _
    · exact readEvent_stop rfl _ _
    · exact readEvent_stop rfl _ _
  exact ((Reads.line rfl hstart).append h).append (.line rfl hstop)

end

/-- The values of a map whose entries have their own names are sorted by name. -/
theorem sorted_values {name : α → Text} (h : ∀ x ∈ m.entries, name x.2 = x.1) :
    (m.entries.map Prod.snd).insertionSort (fun a b => name a ≤ name b) =
      m.entries.map Prod.snd := by
  refine List.Pairwise.insertionSort_eq (List.pairwise_map.mpr ?_)
  refine m.sorted.imp_of_mem ?_
  intro x y hx hy hlt
  rw [h x hx, h y hy]
  exact hlt.le

/-- **Reading the document gives the store**, with the nodes renamed. -/
theorem reads_permissionsDocument (h : ProperStore casing ok store) :
    Reads casing reader ⟨false, .empty, [], false⟩ (permissionsDocument store)
      (openAt [] (store.renamed casing)) := by
  have hproper : ∀ {α : Type} {P : Text → α → Prop} {m : OrderedMap Text α},
      ProperMap casing ok P m → ∀ x ∈ m.entries, isBlank x.1 = false ∧ P x.1 x.2 := by
    intro α P m hm x hx
    obtain ⟨hkey, hP⟩ := hm.proper x.1 x.2 (OrderedMap.mem_iff_get.mp hx)
    exact ⟨hkey.blank, hP⟩
  have hgroups := reads_map reader
    (fun m => openAt (sectionStack .groups) { PermissionStore.empty with groups := m })
    (fun x => writeGroup x.2) (PermissionGroup.renamed casing) h.groups fun n x hx hnew => by
      obtain ⟨hblank, hg⟩ := hproper h.groups x hx
      obtain ⟨k, g⟩ := x
      obtain rfl : g.name = k := hg.name
      exact reads_writeGroup hblank hg hnew
  have husers := reads_map reader
    (fun m => openAt (sectionStack .users)
      { PermissionStore.empty with groups := (store.renamed casing).groups, users := m })
    (fun x => writeUser x.2) (PermissionUser.renamed casing) h.users fun n x hx hnew => by
      obtain ⟨hblank, hu⟩ := hproper h.users x hx
      obtain ⟨k, u⟩ := x
      obtain rfl : u.uuid = k := hu.uuid
      exact reads_writeUser hblank hu hnew
  have hseeded := reads_map reader
    (fun m => openAt (sectionStack .seededDefaults)
      { store.renamed casing with seededDefaults := m })
    writeSeeded (renamedNodes casing) h.seeded fun n x hx hnew =>
      reads_writeSeeded (hproper h.seeded x hx).1 (hproper h.seeded x hx).2 hnew
  have hgroupNames := sorted_values fun x hx => (hproper h.groups x hx).2.name
  have huserNames := sorted_values fun x hx => (hproper h.users x hx).2.uuid
  have hsections := ((reads_writeSection (.inl rfl) hgroups).append
    (reads_writeSection (.inr (.inl rfl)) husers)).append
    (reads_writeSection (.inr (.inr rfl)) hseeded)
  unfold permissionsDocument
  dsimp only
  rw [hgroupNames, huserNames, List.flatMap_map, List.flatMap_map]
  refine Reads.append (Reads.append ?_ hsections) ?_
  · show readAll casing reader _ [.decl, .start Tag.permissions.name []] = _
    rfl
  · show readAll casing reader _ [.stop Tag.permissions.name] = _
    rfl

/-! ### The result -/

/-- A text of a store that the reader allows, one that was put in by `migrate` included. -/
theorem allowed_isLegal : Allowed fun v => isLegal v = true := by
  refine ⟨List.all_eq_true.mp (by decide), ?_⟩
  intro v hv
  exact List.all_eq_true.mpr fun c hc => List.all_eq_true.mp hv c (mem_of_mem_trim hc)

theorem allowed_true : Allowed fun _ => True := ⟨fun _ _ => trivial, fun _ _ => trivial⟩

theorem ProperStore.isLegal (h : ProperStore casing (fun v => Permissions.isLegal v = true) store) :
    store.isLegal = true := by
  have hset : ∀ {s : TextSet}, ProperSet casing (fun v => Permissions.isLegal v = true) s →
      s.keys.all Permissions.isLegal = true :=
    fun hs => List.all_eq_true.mpr fun v hv => (hs.proper v hv).ok
  unfold PermissionStore.isLegal
  rw [Bool.and_eq_true, Bool.and_eq_true]
  refine ⟨⟨?_, ?_⟩, ?_⟩
  · refine List.all_eq_true.mpr fun x hx => ?_
    obtain ⟨hkey, hg⟩ := h.groups.proper x.1 x.2 (OrderedMap.mem_iff_get.mp hx)
    rw [hg.name, hkey.ok, hset hg.parents, hset hg.nodes]
    rfl
  · refine List.all_eq_true.mpr fun x hx => ?_
    obtain ⟨hkey, hu⟩ := h.users.proper x.1 x.2 (OrderedMap.mem_iff_get.mp hx)
    rw [hu.uuid, hkey.ok, hset hu.groups, hset hu.nodes]
    rfl
  · refine List.all_eq_true.mpr fun x hx => ?_
    obtain ⟨hkey, hs⟩ := h.seeded.proper x.1 x.2 (OrderedMap.mem_iff_get.mp hx)
    rw [hkey.ok, hset hs]
    rfl

/-- What becomes of a store that was saved. -/
theorem parsePermissions_save (h : ProperStore casing ok store) :
    parsePermissions casing reader (savePermissions store) =
      if store.isLegal then .ok (store.renamed casing) else .error .invalidXmlCharacter := by
  have hgood := permissionsDocument_good store
  have hchars : (savePermissions store).all isXmlChar = store.isLegal := hgood.chars
  have hclosed : Markup.Balanced [] (permissionsDocument store) := by
    rw [← List.append_nil (permissionsDocument store)]
    exact hgood.closed [] [] rfl
  obtain ⟨events, hevents, hfilter⟩ := reader.reads _ ⟨hgood.proper, hclosed⟩
  have hread : readAll casing reader ⟨false, .empty, [], false⟩ events =
      .ok (openAt [] (store.renamed casing)) := by
    rw [readAll_filter, hfilter]
    exact reads_permissionsDocument h
  have hreader : reader.readEvents (savePermissions store) = some events := hevents
  unfold parsePermissions
  rw [hchars, hreader]
  cases store.isLegal with
  | false => rfl
  | true =>
    show (readAll casing reader ⟨false, .empty, [], false⟩ events >>= _) = _
    rw [hread]
    rfl

/-- Nodes that were renamed by `migrate`. -/
structure RenamedSet (casing : Casing) (s s' : TextSet) : Prop where
  back : ∀ v ∈ s'.keys, ∃ w ∈ s.keys, v = migrate casing w
  there : ∀ w ∈ s.keys, ∃ v ∈ s'.keys, same casing v (migrate casing w) = true
  unchanged : (∀ w ∈ s.keys, migrate casing w = w) → s' = s

theorem renamedSet_renamedNodes (h : CaseDistinct casing s.keys) :
    RenamedSet casing s (renamedNodes casing s) := by
  have hfold : ∀ (l : List Text) (acc : TextSet),
      let done := l.foldl (fun s v => insert casing s (migrate casing v)) acc
      (∀ v ∈ done.keys, v ∈ acc.keys ∨ ∃ w ∈ l, v = migrate casing w) ∧
        (∀ v, contains casing acc v = true → contains casing done v = true) ∧
        ∀ w ∈ l, contains casing done (migrate casing w) = true := by
    intro l
    induction l with
    | nil => exact fun acc => ⟨fun v hv => .inl hv, fun v hv => hv, nofun⟩
    | cons x l ih =>
      intro acc
      obtain ⟨hback, hkeep, hthere⟩ := ih (insert casing acc (migrate casing x))
      have hgrow : ∀ v, contains casing acc v = true →
          contains casing (insert casing acc (migrate casing x)) v = true := by
        intro v hv
        unfold insert
        split
        · exact hv
        · obtain ⟨a, ha, hsame⟩ := contains_iff.mp hv
          exact contains_iff.mpr ⟨a, mem_keys_insert.mpr (.inr ha), hsame⟩
      have hnew : contains casing (insert casing acc (migrate casing x))
          (migrate casing x) = true := by
        unfold insert
        split
        · assumption
        · exact contains_iff.mpr ⟨_, mem_keys_insert.mpr (.inl rfl), same_refl _⟩
      refine ⟨?_, fun v hv => hkeep v (hgrow v hv), ?_⟩
      · intro v hv
        rcases hback v hv with hv | ⟨w, hw, rfl⟩
        · rcases mem_insert hv with hv | ⟨rfl, _⟩
          · exact .inl hv
          · exact .inr ⟨x, .head _, rfl⟩
        · exact .inr ⟨w, .tail _ hw, rfl⟩
      · intro w hw
        rcases List.mem_cons.mp hw with rfl | hw
        · exact hkeep _ hnew
        · exact hthere w hw
  obtain ⟨hback, -, hthere⟩ := hfold s.keys OrderedMap.empty
  refine ⟨?_, ?_, ?_⟩
  · intro v hv
    exact (hback v hv).resolve_left List.not_mem_nil
  · intro w hw
    exact contains_iff.mp (hthere w hw)
  · intro hsame
    refine (List.foldl_ext _ _ _ ?_).trans (foldl_insert_keys h)
    intro acc v hv
    rw [hsame v hv]

/-- Two maps with the same keys and related entries. -/
structure SameKeys {α : Type} (R : α → α → Prop) (m m' : OrderedMap Text α) : Prop where
  keys : m'.keys = m.keys
  entries : ∀ k x x', m.get k = some x → m'.get k = some x' → R x x'

theorem sameKeys_mapValues {R : α → α → Prop} {P : Text → α → Prop} {f : α → α}
    (hm : ProperMap casing ok P m) (h : ∀ k x, P k x → R x (f x)) :
    SameKeys R m (m.mapValues f) := by
  refine ⟨OrderedMap.keys_mapValues f m, ?_⟩
  intro k x x' hx hx'
  rw [OrderedMap.get_mapValues, hx] at hx'
  cases hx'
  exact h k x (hm.proper k x hx).2

/-- The same store up to the renaming done by `migrate`. -/
structure Renamed (casing : Casing) (store loaded : PermissionStore) : Prop where
  users : SameKeys (fun u u' => u'.uuid = u.uuid ∧ u'.groups = u.groups ∧
    RenamedSet casing u.nodes u'.nodes) store.users loaded.users
  groups : SameKeys (fun g g' => g'.name = g.name ∧ g'.parents = g.parents ∧
    RenamedSet casing g.nodes g'.nodes) store.groups loaded.groups
  seededDefaults : SameKeys (RenamedSet casing) store.seededDefaults loaded.seededDefaults

theorem ProperStore.renamed (h : ProperStore casing ok store) :
    Renamed casing store (store.renamed casing) := by
  refine ⟨sameKeys_mapValues h.users ?_, sameKeys_mapValues h.groups ?_,
    sameKeys_mapValues h.seeded ?_⟩
  · exact fun k u hu => ⟨rfl, rfl, renamedSet_renamedNodes hu.nodes.distinct⟩
  · exact fun k g hg => ⟨rfl, rfl, renamedSet_renamedNodes hg.nodes.distinct⟩
  · exact fun k s hs => renamedSet_renamedNodes hs.distinct

/-- No two names that belong together are equal without regard to case. -/
structure CaseFree (casing : Casing) (store : PermissionStore) : Prop where
  users : CaseDistinct casing store.users.keys
  groups : CaseDistinct casing store.groups.keys
  user : ∀ k u, store.users.get k = some u →
    CaseDistinct casing u.nodes.keys ∧ CaseDistinct casing u.groups.keys
  group : ∀ k g, store.groups.get k = some g →
    CaseDistinct casing g.nodes.keys ∧ CaseDistinct casing g.parents.keys

theorem ProperStore.caseFree (h : ProperStore casing ok store) : CaseFree casing store := by
  refine ⟨h.users.distinct, h.groups.distinct, ?_, ?_⟩
  · intro k u hu
    have huser := (h.users.proper k u hu).2
    exact ⟨huser.nodes.distinct, huser.groups.distinct⟩
  · intro k g hg
    have hgroup := (h.groups.proper k g hg).2
    exact ⟨hgroup.nodes.distinct, hgroup.parents.distinct⟩

/-- Every text that an operation may put into the store has only characters that XML allows. -/
def LegalTexts (reader : XmlReader) (_ : PermissionStore) (op : PermissionOp) : Prop :=
  ∀ v ∈ op.texts reader, isBlank v = false → isLegal v = true

theorem reachable_proper (hok : Allowed ok) {side : PermissionStore → PermissionOp → Prop}
    (hside : ∀ store op, side store op → ∀ v ∈ op.texts reader, isBlank v = false → ok v)
    (h : Reachable (permissionSystem casing reader) side store) : ProperStore casing ok store := by
  refine h.invariant (ProperStore casing ok) ?_ ?_
  · intro store hinit
    rw [show store = .empty from hinit]
    exact .empty
  · intro store op store' hstore hop hstep
    rw [← Option.some.inj hstep]
    exact hstore.run hok (hside store op hop)

/-- **A saved store can be loaded.** Along all runs the names stay distinct without regard to case,
and the saved text is read as the store, up to the renaming, if and only if XML allows all
characters in the store; that is so in a run whose operations put in nothing else. -/
theorem saved_permissions_load (casing : Casing) (reader : XmlReader) :
    (∀ store, Reachable (permissionSystem casing reader) (fun _ _ => True) store →
      CaseFree casing store ∧
        ((∃ loaded, parsePermissions casing reader (savePermissions store) = .ok loaded ∧
          Renamed casing store loaded) ↔ store.isLegal = true)) ∧
      ∀ store, Reachable (permissionSystem casing reader) (LegalTexts reader) store →
        ∃ loaded, parsePermissions casing reader (savePermissions store) = .ok loaded ∧
          Renamed casing store loaded := by
  constructor
  · intro store hreach
    have hproper := reachable_proper allowed_true (fun _ _ _ _ _ _ => trivial) hreach
    refine ⟨hproper.caseFree, ?_⟩
    rw [parsePermissions_save hproper]
    constructor
    · rintro ⟨loaded, hloaded, -⟩
      split at hloaded
      · assumption
      · cases hloaded
    · intro hlegal
      rw [if_pos hlegal]
      exact ⟨_, rfl, hproper.renamed⟩
  · intro store hreach
    have hproper := reachable_proper allowed_isLegal (fun _ _ h => h) hreach
    rw [parsePermissions_save hproper, if_pos hproper.isLegal]
    exact ⟨_, rfl, hproper.renamed⟩

/-! ### A reader -/

/-- The characters that are written as entities. -/
def entityChar (name : Text) : Option Char :=
  if name = "amp".toList then some '&'
  else if name = "quot".toList then some '"'
  else if name = "lt".toList then some '<'
  else if name = "gt".toList then some '>'
  else if name = "#13".toList then some '\r'
  else if name = "#10".toList then some '\n'
  else if name = "#9".toList then some '\t'
  else none

/-- Decode on, with the characters of the current entity. -/
def unescapeFrom : Option Text → Text → Option Text
  | none, [] => some []
  | some _, [] => none
  | none, c :: cs =>
    if c = '&' then unescapeFrom (some []) cs else (unescapeFrom none cs).map (c :: ·)
  | some name, c :: cs =>
    if c = ';' then
      match entityChar name, unescapeFrom none cs with
      | some d, some rest => some (d :: rest)
      | _, _ => none
    else unescapeFrom (some (name ++ [c])) cs

theorem unescapeFrom_entity (h : ∀ c ∈ name, c ≠ ';') : ∀ acc rest,
    unescapeFrom (some acc) (name ++ ';' :: rest) =
      match entityChar (acc ++ name), unescapeFrom none rest with
      | some d, some rest => some (d :: rest)
      | _, _ => none := by
  induction name with
  | nil =>
    intro acc rest
    rw [List.nil_append, unescapeFrom, if_pos rfl, List.append_nil]
  | cons c name ih =>
    intro acc rest
    rw [List.cons_append, unescapeFrom, if_neg (h c (.head _)),
      ih (fun d hd => h d (.tail _ hd)), List.append_assoc]
    rfl

/-- The entity of a character. -/
theorem unescapeFrom_special (name : Text) (hshape : escape [c] = '&' :: name ++ [';'])
    (hname : (name.all fun d => d ≠ ';') = true) (hchar : entityChar name = some c) (rest : Text) :
    unescapeFrom none (escape [c] ++ rest) = (unescapeFrom none rest).map (c :: ·) := by
  have hsemicolon : ∀ d ∈ name, d ≠ ';' := fun d hd =>
    of_decide_eq_true (List.all_eq_true.mp hname d hd)
  rw [hshape, List.append_assoc, List.cons_append, unescapeFrom, if_pos rfl, List.singleton_append,
    unescapeFrom_entity hsemicolon, List.nil_append, hchar]
  cases unescapeFrom none rest <;> rfl

theorem unescapeFrom_escape (value : Text) : unescapeFrom none (escape value) = some value := by
  induction value with
  | nil => decide
  | cons c value ih =>
    rw [escape_cons]
    have hchar : unescapeFrom none (escape [c] ++ escape value) =
        (unescapeFrom none (escape value)).map (c :: ·) := by
      by_cases hmem : c ∈ escapedChars
      · simp only [escapedChars, List.mem_cons, List.not_mem_nil, or_false] at hmem
        rcases hmem with rfl | rfl | rfl | rfl | rfl | rfl | rfl
        · exact unescapeFrom_special "amp".toList (by decide) (by decide)
            (by decide) _
        · exact unescapeFrom_special "quot".toList (by decide) (by decide)
            (by decide) _
        · exact unescapeFrom_special "lt".toList (by decide) (by decide)
            (by decide) _
        · exact unescapeFrom_special "gt".toList (by decide) (by decide)
            (by decide) _
        · exact unescapeFrom_special "#13".toList (by decide) (by decide)
            (by decide) _
        · exact unescapeFrom_special "#10".toList (by decide) (by decide)
            (by decide) _
        · exact unescapeFrom_special "#9".toList (by decide) (by decide)
            (by decide) _
      · have hamp : c ≠ '&' := fun heq => hmem (heq ▸ .head _)
        rw [escape_char hmem, List.singleton_append, unescapeFrom, if_neg hamp]
    rw [hchar, ih]
    rfl

def markupReader : XmlReader where
  readEvents := readMarkup
  decodeValue := unescapeFrom none
  reads := fun _ hdoc => readMarkup_render hdoc.proper
  decodes := unescapeFrom_escape

/-- The defaults, a user with a line feed in the name, a node with an old name and a group that
goes. -/
def permissionRun : List PermissionOp :=
  [.ensureDefaults, .addUserToGroup " A&n\n".toList " ADMIN ".toList,
    .addUserNode " a&N\n".toList "-Basis.Moderation.Shout".toList,
    .addGroupParent "x".toList "y".toList, .deleteGroup "X".toList]

theorem saved_permissions_load_run :
    ∃ store, Reachable (permissionSystem asciiCasing markupReader) (LegalTexts markupReader) store ∧
      ((store.users.get " A&n\n".toList).map fun u => u.groups.keys) =
        some ["ADMIN".toList, "default".toList] ∧
      ∃ loaded, parsePermissions asciiCasing markupReader (savePermissions store) = .ok loaded ∧
        Renamed asciiCasing store loaded := by
  have hadmits : Admits (permissionSystem asciiCasing markupReader) (LegalTexts markupReader)
      .empty permissionRun := by
    have hlegal : ∀ op ∈ permissionRun, ∀ store, LegalTexts markupReader store op := by
      intro op hop store v hv _
      have hall : (permissionRun.all fun op => (op.texts markupReader).all isLegal) = true := by
        decide +kernel
      exact List.all_eq_true.mp (List.all_eq_true.mp hall op hop) v hv
    exact .of_forall_mem (fun store op hop => hlegal op hop store) _
  obtain ⟨store, hreach, hstore⟩ :=
    exists_reachable_of_run (LegalTexts markupReader) hadmits (.init rfl)
    (P := fun store => ((store.users.get " A&n\n".toList).map fun u => u.groups.keys) =
      some ["ADMIN".toList, "default".toList]) (by decide +kernel)
  exact ⟨store, hreach, of_decide_eq_true hstore,
    (saved_permissions_load asciiCasing markupReader).2 store hreach⟩

/-- A node with a control character is saved, and the file is refused. -/
theorem control_character_refused :
    ∃ store, Reachable (permissionSystem asciiCasing markupReader) (fun _ _ => True) store ∧
      parsePermissions asciiCasing markupReader (savePermissions store) =
        .error .invalidXmlCharacter := by
  have hreach : Reachable (permissionSystem asciiCasing markupReader) (fun _ _ => True)
      (addUserNode asciiCasing .empty "a".toList ['x', Char.ofNat 1]) :=
    .step (a := .addUserNode "a".toList ['x', Char.ofNat 1]) (.init rfl) trivial rfl
  have hproper := reachable_proper allowed_true (fun _ _ _ _ _ _ => trivial) hreach
  refine ⟨_, hreach, ?_⟩
  rw [parsePermissions_save hproper]
  exact if_neg (by decide +kernel)

end BasisRust.Permissions
