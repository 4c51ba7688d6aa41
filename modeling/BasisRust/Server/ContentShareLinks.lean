import BasisRust.Server.LinkGrammar

/-!
# Shared links and folders of links

The links that the server relays, alone or in a folder, against the form they should have.  A link
whose spelling is not one of the four that deviate has the form if it is accepted, and the others
are accepted without having it: `content_share_links`.
-/

namespace BasisRust.Server.ContentShare

open Library
open Storage (GeneralCategory)

/-! ### The parts of an address are determined -/

variable {host tail url : Text}

theorem host_ne_nil (h : HostForm host ∨ DeviantHost host) : host ≠ [] := by
  rintro rfl
  rcases host_cases h with h | ⟨address, -, h⟩ | ⟨n, final, h, -⟩
  · exact not_ipv4_nil h
  · cases h
  · obtain ⟨⟨c, hc, -⟩, -⟩ := n.name_tight final
    rw [← h] at hc
    cases hc

/-- A host and what follows it can be told apart. -/
def cutHost (authority : Text) : Option (Text × Text) :=
  if authority.head? = some '[' then (cutOnce [']'] authority).map fun p => (p.1 ++ [']'], p.2)
  else some (authority.takeWhile fun c => decide (c ≠ ':'), authority.dropWhile fun c =>
    decide (c ≠ ':'))

theorem cutHost_eq (hform : HostForm host ∨ DeviantHost host)
    (htail : PortForm tail ∨ DeviantTail host tail) :
    cutHost (host ++ tail) = some (host, tail) := by
  rcases host_bare hform with ⟨address, haddress, rfl⟩ | ⟨hcolon, hbracket⟩
  · have hfresh : ']' ∉ '[' :: address := by
      rw [List.mem_cons, not_or]
      exact ⟨by decide, (mem_bracketed haddress).1⟩
    have hcut : cutOnce [']'] (bracketed address ++ tail) = some ('[' :: address, tail) :=
      cutOnce_fresh hfresh tail
    unfold cutHost
    rw [if_pos (by rfl), hcut]
    rfl
  · have hhead : (host ++ tail).head? ≠ some '[' := by
      rw [List.head?_append_of_ne_nil _ (host_ne_nil hform)]
      exact hbracket
    have hhost : ∀ c ∈ host, decide (c ≠ ':') = true := fun c hc =>
      decide_eq_true fun heq => hcolon (heq ▸ hc)
    unfold cutHost
    rw [if_neg hhead, List.takeWhile_append_of_pos hhost, List.dropWhile_append_of_pos hhost]
    rcases tail_of_bare hbracket htail with rfl | ⟨port, rfl⟩
    · rw [List.takeWhile_nil, List.append_nil, List.dropWhile_nil]
    · rw [List.takeWhile_cons_of_neg (by decide), List.append_nil,
        List.dropWhile_cons_of_neg (by decide)]

theorem Parts.unique {scheme rest scheme' host' tail' rest' : Text}
    (h : Parts url scheme host tail rest) (h' : Parts url scheme' host' tail' rest')
    (hhost : HostForm host ∨ DeviantHost host) (hhost' : HostForm host' ∨ DeviantHost host')
    (htail : PortForm tail ∨ DeviantTail host tail)
    (htail' : PortForm tail' ∨ DeviantTail host' tail') : host = host' ∧ tail = tail' := by
  have hcut := h.cutOnce_eq
  rw [h'.cutOnce_eq, Option.some.injEq, Prod.mk.injEq] at hcut
  have hauthority : host ++ tail = host' ++ tail' := by
    rw [← h.authority_eq, ← h'.authority_eq, hcut.2]
  have hparts := cutHost_eq hhost htail
  rw [hauthority, cutHost_eq hhost' htail', Option.some.injEq, Prod.mk.injEq] at hparts
  exact ⟨hparts.1.symm, hparts.2.symm⟩

/-! ### The deviant spellings do not have the form -/

theorem DeviantHost.not_form (h : DeviantHost host) : ¬HostForm host := by
  obtain ⟨n, final, hlast⟩ := h
  intro hform
  obtain ⟨digits, hdigits, hhex⟩ := hlast
  generalize hname : n.name final = host at hform
  cases hform with
  | ipv4 h4 =>
    have hx : 'X' ∈ n.last := hdigits ▸ .tail _ (.head _)
    have hmem : 'X' ∈ lastLabel host := by rwa [← hname, n.lastLabel_name]
    have hchars := ipv4_chars h4
    have hsub : 'X' ∈ host := by
      unfold lastLabel at hmem
      rw [List.getLastD_eq_getLast?,
        List.getLast?_eq_some_getLast (List.splitOn_ne_nil _ _)] at hmem
      have hpiece := mem_of_mem_splitOn (List.getLast_mem (List.splitOn_ne_nil _ _)) 'X' hmem
      exact (List.rdropWhile_prefix _ _).subset hpiece.1
    exact absurd (hchars 'X' hsub) (by decide)
  | ipv6 h6 =>
    have hbracket : '[' ∈ n.name final := hname ▸ .head _
    exact absurd (n.name_chars final _ hbracket) (by decide)
  | name n' final' hnumber =>
    have heq : n.last = n'.last := by rw [← n.lastLabel_name final, hname, n'.lastLabel_name]
    exact hnumber (.inr ⟨'X', digits, heq ▸ hdigits, .inr rfl, hhex⟩)

theorem DeviantTail.not_form (h : DeviantTail host tail) : ¬PortForm tail := by
  intro hform
  cases h with
  | plusSign hdigits =>
    cases hform with
    | port hport _ => exact absurd (hport.decimal _ (.head _)) (by decide)
  | zeros hlength hzeros =>
    cases hform with
    | empty => exact absurd hlength (by decide)
    | port hport hvalue =>
      rw [(digitsValue_eq_zero hport.decimal).mpr hzeros] at hvalue
      exact absurd hvalue (by decide)
  | noColon hhost hport hdigits hzero =>
    have hcolon : ∀ t : Text, tail ≠ ':' :: t := by
      intro t heq
      rcases hport with rfl | rfl
      · exact hdigits.head_ne (by decide) heq
      · exact absurd (List.cons.inj heq).1 (by decide)
    cases hform with
    | absent =>
      rcases hport with h | h
      · exact hdigits.ne_nil h.symm
      · cases h
    | empty => exact hcolon [] rfl
    | port _ _ => exact hcolon _ rfl

variable {category : Char → GeneralCategory} {strictLink : Bool}

theorem Deviates.accepted (h : Deviates category strictLink url) :
    Accepted category strictLink url := by
  obtain ⟨hlength, hchars, scheme, host, tail, rest, hparts, hshort, hhost, htail, -⟩ := h
  exact ⟨hlength, hchars, scheme, host, tail, rest, hparts, hshort, hhost, htail, trivial⟩

theorem Deviates.not_linkForm (h : Deviates category strictLink url) : ¬LinkForm category url := by
  obtain ⟨-, -, scheme, host, tail, rest, hparts, -, hhost, htail, hdeviant⟩ := h
  rintro ⟨-, scheme', host', tail', rest', hparts', hhost', htail'⟩
  obtain ⟨rfl, rfl⟩ := hparts.unique hparts' hhost (.inl hhost') htail (.inl htail')
  rcases hdeviant with hdeviant | hdeviant
  · exact hdeviant.not_form hhost'
  · exact hdeviant.not_form htail'

/-- **An accepted address has the form unless it deviates.** -/
theorem Accepted.linkForm_iff (h : Accepted category strictLink url) :
    LinkForm category url ↔ ¬Deviates category strictLink url := by
  refine ⟨fun hform hdeviates => hdeviates.not_linkForm hform, fun hregular => ?_⟩
  obtain ⟨hlength, hchars, scheme, host, tail, rest, hparts, hshort, hhost, htail, -⟩ := h
  have hnone : ¬(DeviantHost host ∨ DeviantTail host tail) := fun hdeviant =>
    hregular ⟨hlength, hchars, scheme, host, tail, rest, hparts, hshort, hhost, htail, hdeviant⟩
  rw [not_or] at hnone
  refine ⟨fun c hc => ?_, scheme, host, tail, rest, hparts, hhost.resolve_right hnone.1,
    htail.resolve_right hnone.2⟩
  have hrefused := hchars c hc
  unfold refusedInAddress at hrefused
  simp only [Bool.or_eq_false_iff, decide_eq_false_iff_not] at hrefused
  exact ⟨hrefused.1.1.1.1.1.1, hrefused.1.1.1.1.1.2, hrefused.2⟩

/-! ### Folders -/

/-- The lines of the items of a folder. -/
def itemLines (ls : List Text) : List Text := ls.filter fun line => !(withoutReturns line).isEmpty

def folderLines (payload : Text) : List Text := itemLines ((lines payload).drop 2)

def folderUrl (line : Text) : Text := unescapeField ((fieldsOf line).getD 1 [])

/-- The links in a folder. -/
def folderUrls (payload : Text) : List Text := (folderLines payload).map folderUrl

/-- An item of a folder, its link apart. -/
def ItemShape (line : Text) : Prop :=
  3 ≤ (fieldsOf line).length ∧ (folderKind ((fieldsOf line).getD 0 [])).isSome ∧
    unescapeField ((fieldsOf line).getD 2 []) ≠ []

/-- A folder that is accepted. -/
structure AcceptedFolder (category : Char → GeneralCategory) (payload : Text) : Prop where
  short : byteLength payload ≤ 16384
  header : ((lines payload).head?).map withoutReturns = some folderHeader
  id : ∃ line, (lines payload)[1]? = some line ∧
    validFolderId (unescapeField ((fieldsOf line).headD [])) = true
  nonempty : folderLines payload ≠ []
  few : (folderLines payload).length ≤ maxFolderItems
  items : ∀ line ∈ folderLines payload, ItemShape line ∧ Accepted category false (folderUrl line)

/-- A folder that is accepted with a link in it that deviates. -/
def FolderDeviates (category : Char → GeneralCategory) (payload : Text) : Prop :=
  AcceptedFolder category payload ∧ ∃ url ∈ folderUrls payload, Deviates category false url

section Folder

variable {category : Char → GeneralCategory}

theorem folderItem_isSome {line : Text} : (folderItem category line).isSome ↔
    ItemShape line ∧ Accepted category false (folderUrl line) := by
  unfold folderItem ItemShape folderUrl
  rw [← validHttpAddress_iff]
  match fieldsOf line with
  | [] => simp
  | [_] => simp
  | [_, _] => simp
  | kind :: url :: password :: _ =>
    cases hkind : folderKind kind with
    | none | some => simp [hkind]

theorem folderItems_isSome {ls : List Text} {items : List ContentShareType}
    (hfew : items.length ≤ maxFolderItems) : (folderItems category items ls).isSome ↔
      (items ≠ [] ∨ itemLines ls ≠ []) ∧ items.length + (itemLines ls).length ≤ maxFolderItems ∧
        ∀ line ∈ itemLines ls, ItemShape line ∧ Accepted category false (folderUrl line) := by
  induction ls generalizing items with
  | nil =>
    rw [folderItems]
    cases items with
    | nil => simp [itemLines]
    | cons item items => simpa [itemLines] using hfew
  | cons line ls ih =>
    rw [folderItems]
    by_cases hblank : (withoutReturns line).isEmpty = true
    · have hskip : itemLines (line :: ls) = itemLines ls :=
        List.filter_cons_of_neg (by rw [hblank]; exact Bool.false_ne_true)
      rw [if_pos hblank, hskip, ih hfew]
    · have hkeep : itemLines (line :: ls) = line :: itemLines ls :=
        List.filter_cons_of_pos (by rw [eq_false_of_ne_true hblank]; rfl)
      rw [if_neg hblank, hkeep, List.forall_mem_cons, ← @folderItem_isSome category line,
        List.length_cons]
      split
      · rename_i hfull
        refine iff_of_false Bool.false_ne_true ?_
        rintro ⟨-, hlength, -⟩
        omega
      · rename_i hroom
        cases hitem : folderItem category line with
        | none => simp
        | some kind =>
          have hlength : (items ++ [kind]).length = items.length + 1 := List.length_append
          rw [ih (by omega), hlength]
          simp [Nat.add_assoc, Nat.add_comm 1]

theorem validFolder_isSome {payload : Text} {isFinite : Text → Bool} :
    (validate category isFinite .folder payload).isSome ↔ AcceptedFolder category payload := by
  have hsplit : (validate category isFinite .folder payload).isSome ↔
      byteLength payload ≤ 16384 ∧ (validFolder category payload).isSome := by
    show (if byteLength payload ≤ 16384 then validFolder category payload else none).isSome ↔ _
    split <;> simp_all
  rw [hsplit]
  constructor
  · rintro ⟨hshort, hfolder⟩
    unfold validFolder at hfolder
    split at hfolder
    · rename_i header folder items hlines
      split at hfolder
      · cases hfolder
      rename_i hheader
      split at hfolder
      · cases hfolder
      rename_i hid
      rw [folderItems_isSome (Nat.zero_le _)] at hfolder
      have hitems : folderLines payload = itemLines items := by unfold folderLines; rw [hlines]; rfl
      rw [← hitems, List.length_nil, Nat.zero_add] at hfolder
      refine ⟨hshort, ?_, ⟨folder, ?_, ?_⟩, hfolder.1.resolve_left (fun h => h rfl), hfolder.2.1,
        hfolder.2.2⟩
      · rw [hlines]
        exact congrArg some (not_not.mp hheader)
      · rw [hlines]
        rfl
      · simpa using hid
    · cases hfolder
  · intro h
    refine ⟨h.short, ?_⟩
    obtain ⟨line, hline, hid⟩ := h.id
    have hheader := h.header
    unfold validFolder
    match hlines : lines payload with
    | [] =>
      rw [hlines] at hline
      cases hline
    | [_] =>
      rw [hlines] at hline
      cases hline
    | header :: folder :: items =>
      have hitems : folderLines payload = itemLines items := by unfold folderLines; rw [hlines]; rfl
      rw [hlines] at hline hheader
      have hfolder : folder = line := Option.some.inj hline
      have hfirst : withoutReturns header = folderHeader := Option.some.inj hheader
      dsimp only
      rw [if_neg (not_not.mpr hfirst), hfolder, hid, if_neg (by decide),
        folderItems_isSome (Nat.zero_le _), ← hitems, List.length_nil, Nat.zero_add]
      exact ⟨.inr h.nonempty, h.few, h.items⟩

end Folder

/-- **Links have their form unless they deviate.** -/
theorem content_share_links (category : Char → GeneralCategory) (isFinite : Text → Bool)
    (url payload : Text) :
    ((validHttpAddress category url true = true → LinkForm category url) ↔
      ¬Deviates category true url) ∧
    (((validate category isFinite .folder payload).isSome →
        ∀ link ∈ folderUrls payload, LinkForm category link) ↔
          ¬FolderDeviates category payload) := by
  constructor
  · rw [validHttpAddress_iff]
    constructor
    · exact fun hform hdeviates => hdeviates.not_linkForm (hform hdeviates.accepted)
    · exact fun hregular haccepted => haccepted.linkForm_iff.mpr hregular
  · rw [validFolder_isSome]
    constructor
    · rintro hform ⟨haccepted, link, hlink, hdeviates⟩
      exact hdeviates.not_linkForm (hform haccepted link hlink)
    · intro hregular haccepted link hlink
      obtain ⟨line, hline, rfl⟩ := List.mem_map.mp hlink
      refine (haccepted.items line hline).2.linkForm_iff.mpr fun hdeviates => ?_
      exact hregular ⟨haccepted, _, hlink, hdeviates⟩

/-! ### The four spellings that deviate -/

section Spellings

/-- `http://` in front. -/
def atHttp (authority : Text) : Text := http ++ schemeSeparator ++ authority

theorem deviates_atHttp (host tail : Text) (hlength : byteLength (atHttp (host ++ tail)) ≤ 4096)
    (hchars : ∀ c ∈ atHttp (host ++ tail), refusedInAddress (fun _ => .other) c = false)
    (hauthority : ∀ c ∈ host ++ tail, endsAuthority c = false ∧ c ≠ '@')
    (hshort : hostLength host ≤ 254)
    (hhost : HostForm host ∨ DeviantHost host) (htail : PortForm tail ∨ DeviantTail host tail)
    (hdeviant : DeviantHost host ∨ DeviantTail host tail) :
    Deviates (fun _ => .other) true (atHttp (host ++ tail)) := by
  refine ⟨hlength, hchars, http, host, tail, [], ⟨?_, .inl (by decide), hauthority, ?_⟩,
    hshort, hhost, htail, hdeviant⟩
  · rw [List.append_nil]
    rfl
  · intro c hc
    cases hc

def loopback : Text := [':', ':', '1']

def oneLabel : Labels := ⟨[['a']], by decide, by decide, by decide⟩

def hexLabels : Labels := ⟨[['a'], ['0', 'X', '7', 'f']], by decide, by decide, by decide⟩

/-- `http://[::1]80`, `http://a:+80`, `http://a:00` and `http://a.0X7f` are accepted. -/
theorem deviant_spellings :
    (validHttpAddress (fun _ => .other) (atHttp (bracketed loopback ++ ['8', '0'])) true = true ∧
      ¬LinkForm (fun _ => .other) (atHttp (bracketed loopback ++ ['8', '0']))) ∧
    (validHttpAddress (fun _ => .other) (atHttp (['a'] ++ [':', '+', '8', '0'])) true = true ∧
      ¬LinkForm (fun _ => .other) (atHttp (['a'] ++ [':', '+', '8', '0']))) ∧
    (validHttpAddress (fun _ => .other) (atHttp (['a'] ++ [':', '0', '0'])) true = true ∧
      ¬LinkForm (fun _ => .other) (atHttp (['a'] ++ [':', '0', '0']))) ∧
    (validHttpAddress (fun _ => .other) (atHttp (hexLabels.name false ++ [])) true = true ∧
      ¬LinkForm (fun _ => .other) (atHttp (hexLabels.name false ++ []))) := by
  have hport : IsPort ['8', '0'] := ⟨by decide, by decide, by decide⟩
  have ha : HostForm (oneLabel.name false) := by
    refine .name oneLabel false ?_
    rintro (h | ⟨x, digits, h, -⟩)
    · exact absurd (h 'a' List.mem_cons_self) (by decide)
    · cases h
  have hcolon := deviates_atHttp (bracketed loopback) ['8', '0'] (by decide) (by decide)
    (by decide) (by decide) (.inl (.ipv6 (by decide)))
    (.inr (.noColon rfl (.inl rfl) hport (by decide)))
      (.inr (.noColon rfl (.inl rfl) hport (by decide)))
  have hplus := deviates_atHttp ['a'] [':', '+', '8', '0'] (by decide) (by decide)
    (by decide) (by decide) (.inl ha) (.inr (.plusSign hport)) (.inr (.plusSign hport))
  have hzeros := deviates_atHttp ['a'] [':', '0', '0'] (by decide) (by decide)
    (by decide) (by decide) (.inl ha) (.inr (.zeros (by decide) (by decide)))
    (.inr (.zeros (by decide) (by decide)))
  have hupper : DeviantHost (hexLabels.name false) := ⟨hexLabels, false, ['7', 'f'], rfl, by decide⟩
  have hhex := deviates_atHttp (hexLabels.name false) [] (by decide) (by decide)
    (by decide) (by decide) (.inr hupper) (.inl .absent) (.inl hupper)
  exact ⟨⟨validHttpAddress_iff.mpr hcolon.accepted, hcolon.not_linkForm⟩,
    ⟨validHttpAddress_iff.mpr hplus.accepted, hplus.not_linkForm⟩,
    ⟨validHttpAddress_iff.mpr hzeros.accepted, hzeros.not_linkForm⟩,
    validHttpAddress_iff.mpr hhex.accepted, hhex.not_linkForm⟩

end Spellings

end BasisRust.Server.ContentShare
