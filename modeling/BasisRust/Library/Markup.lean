import BasisRust.Library.Text

/-!
# Markup

Documents as a writer puts them out, one piece after the other, and the events a reader gives for a
text.  A writer only writes elements with at most one attribute, and white space between them.

`readMarkup` is a reader for such documents, and `readMarkup_render` says that its events are the
pieces of the document, white space aside.
-/

namespace BasisRust.Library

/-- An attribute, with its value as it stands in the text. -/
structure XmlAttribute where
  key : Text
  raw : Text
  deriving DecidableEq

/-- What a reader reports; an attribute it cannot read is `none`. -/
inductive XmlEvent where
  | start (name : Text) (attributes : List (Option XmlAttribute))
  | empty (name : Text) (attributes : List (Option XmlAttribute))
  | stop (name : Text)
  | text (content : Text)
  | docType
  | cData
  | generalRef
  | decl
  | comment
  | processing
  deriving DecidableEq

/-- Text that is nothing but white space. -/
def XmlEvent.isSpace : XmlEvent → Bool
  | .text content => isBlank content
  | _ => false

/-- A piece of a document. -/
inductive Markup where
  | decl
  | start (name : Text) (attrib : Option XmlAttribute)
  | empty (name : Text) (attrib : XmlAttribute)
  | stop (name : Text)
  | space (s : Text)
  deriving DecidableEq

namespace Markup

/-- An attribute with the blank in front of it. -/
def renderAttribute (a : XmlAttribute) : Text := ' ' :: a.key ++ '=' :: '"' :: a.raw ++ ['"']

/-- What stands between the brackets. -/
def body : Markup → Text
  | .decl => "?xml version=\"1.0\"?".toList
  | .start name attrib => name ++ attrib.elim [] renderAttribute
  | .empty name attrib => name ++ renderAttribute attrib ++ [' ', '/']
  | .stop name => '/' :: name
  | .space _ => []

def render : Markup → Text
  | .space s => s
  | m => '<' :: m.body ++ ['>']

def event : Markup → Option XmlEvent
  | .decl => some .decl
  | .start name attrib => some (.start name (attrib.toList.map some))
  | .empty name attrib => some (.empty name [some attrib])
  | .stop name => some (.stop name)
  | .space _ => none

end Markup

/-- A name is a text of letters and digits. -/
structure IsName (name : Text) : Prop where
  ne_nil : name ≠ []
  alphanum : ∀ c ∈ name, c.isAlphanum = true

/-- A value that ends neither its attribute nor its element. -/
structure XmlAttribute.Proper (a : XmlAttribute) : Prop where
  key : IsName a.key
  raw : ∀ c ∈ a.raw, c ≠ '"' ∧ c ≠ '<' ∧ c ≠ '>'

namespace Markup

def Proper : Markup → Prop
  | .decl => True
  | .start name attrib => IsName name ∧ ∀ a ∈ attrib, a.Proper
  | .empty name attrib => IsName name ∧ attrib.Proper
  | .stop name => IsName name
  | .space s => ∀ c ∈ s, isWhitespace c = true

/-- Every element is closed, the innermost first, and those that were open before are too. -/
def Balanced : List Text → List Markup → Prop
  | opened, [] => opened = []
  | opened, .start name _ :: doc => Balanced (name :: opened) doc
  | opened, .stop name :: doc => opened.head? = some name ∧ Balanced opened.tail doc
  | opened, .decl :: doc | opened, .empty _ _ :: doc | opened, .space _ :: doc =>
    Balanced opened doc

/-- A document that every reader accepts. -/
structure WellFormed (doc : List Markup) : Prop where
  proper : ∀ m ∈ doc, m.Proper
  balanced : Balanced [] doc

/-- A part of a document that leaves no element open. -/
def Closed (part : List Markup) : Prop :=
  ∀ opened rest, Balanced opened rest → Balanced opened (part ++ rest)

theorem Closed.nil : Closed [] := fun _ _ h => h

theorem Closed.append {part part' : List Markup} (h : Closed part) (h' : Closed part') :
    Closed (part ++ part') := by
  intro opened rest hrest
  rw [List.append_assoc]
  exact h opened _ (h' opened rest hrest)

theorem Closed.space (s : Text) : Closed [.space s] := fun _ _ h => h

theorem Closed.empty (name : Text) (a : XmlAttribute) : Closed [.empty name a] := fun _ _ h => h

theorem Closed.element {part : List Markup} (h : Closed part) (name : Text)
    (attrib : Option XmlAttribute) : Closed (.start name attrib :: part ++ [.stop name]) := by
  intro opened rest hrest
  show Balanced (name :: opened) (part ++ [.stop name] ++ rest)
  rw [List.append_assoc]
  exact h _ _ ⟨rfl, hrest⟩

end Markup

/-! ### A reader -/

/-- The event of what stands between two brackets. -/
def readBody (body : Text) : Option XmlEvent :=
  match body with
  | '?' :: _ => some .decl
  | '/' :: name => some (.stop name)
  | _ =>
    let name := body.takeWhile fun c => c ≠ ' '
    match body.dropWhile fun c => c ≠ ' ' with
    | [] => some (.start name [])
    | _ :: rest =>
      let key := rest.takeWhile fun c => c ≠ '='
      let value := (rest.dropWhile fun c => c ≠ '=').drop 2
      let a : XmlAttribute := ⟨key, value.takeWhile fun c => c ≠ '"'⟩
      let tail := value.dropWhile fun c => c ≠ '"'
      if tail = ['"'] then some (.start name [some a])
      else if tail = ['"', ' ', '/'] then some (.empty name [some a])
      else none

/-- The text that was read up to here. -/
def flush (content : Text) : List XmlEvent := if content.isEmpty then [] else [.text content]

/-- Read on, with the characters of the current text or of the current tag. -/
def readFrom : Bool → Text → Text → Option (List XmlEvent)
  | false, content, [] => some (flush content)
  | true, _, [] => none
  | false, content, c :: cs =>
    if c = '<' then (readFrom true [] cs).map fun events => flush content ++ events
    else readFrom false (content ++ [c]) cs
  | true, body, c :: cs =>
    if c = '>' then
      match readBody body, readFrom false [] cs with
      | some event, some events => some (event :: events)
      | _, _ => none
    else readFrom true (body ++ [c]) cs

def readMarkup (text : Text) : Option (List XmlEvent) := readFrom false [] text

variable {name s : Text}

theorem IsName.ne_of_alphanum (h : IsName name) {c d : Char} (hc : c ∈ name)
    (hd : d.isAlphanum = false) : c ≠ d := by
  intro heq
  rw [← heq, h.alphanum c hc] at hd
  cases hd

/-- Cut a text at the first character of its kind. -/
theorem span_of_notMem {v : Text} {d : Char} (rest : Text) (h : ∀ c ∈ v, c ≠ d) :
    (v ++ d :: rest).takeWhile (fun c => c ≠ d) = v ∧
      (v ++ d :: rest).dropWhile (fun c => c ≠ d) = d :: rest := by
  have hall : ∀ c ∈ v, decide (c ≠ d) = true := fun c hc => decide_eq_true (h c hc)
  rw [List.takeWhile_append_of_pos hall, List.dropWhile_append_of_pos hall]
  simp

/-- The first character of a name is none of the marks. -/
theorem readBody_name {rest : Text} (h : IsName name) :
    readBody (name ++ rest) =
      match (name ++ rest).dropWhile fun c => c ≠ ' ' with
      | [] => some (.start ((name ++ rest).takeWhile fun c => c ≠ ' ') [])
      | _ :: rest' =>
        let key := rest'.takeWhile fun c => c ≠ '='
        let value := (rest'.dropWhile fun c => c ≠ '=').drop 2
        let a : XmlAttribute := ⟨key, value.takeWhile fun c => c ≠ '"'⟩
        let tail := value.dropWhile fun c => c ≠ '"'
        if tail = ['"'] then some (.start ((name ++ rest).takeWhile fun c => c ≠ ' ') [some a])
        else if tail = ['"', ' ', '/'] then
          some (.empty ((name ++ rest).takeWhile fun c => c ≠ ' ') [some a])
        else none := by
  cases name with
  | nil => exact absurd rfl h.ne_nil
  | cons c name =>
    have hq := h.ne_of_alphanum (.head _ (a := c)) (d := '?') rfl
    have hs := h.ne_of_alphanum (.head _ (a := c)) (d := '/') rfl
    rw [List.cons_append]
    unfold readBody
    split
    · rename_i heq
      exact absurd (List.cons.inj heq).1 hq
    · rename_i heq
      exact absurd (List.cons.inj heq).1 hs
    · rfl

/-- An attribute and what comes after it. -/
theorem readBody_attribute {a : XmlAttribute} (hname : IsName name) (ha : a.Proper) (tail : Text) :
    readBody (name ++ (Markup.renderAttribute a ++ tail)) =
      if '"' :: tail = ['"'] then some (.start name [some a])
      else if '"' :: tail = ['"', ' ', '/'] then some (.empty name [some a])
      else none := by
  have hshape : name ++ (Markup.renderAttribute a ++ tail) =
      name ++ ' ' :: (a.key ++ '=' :: '"' :: (a.raw ++ '"' :: tail)) := by
    simp [Markup.renderAttribute]
  obtain ⟨hnameTake, hnameDrop⟩ := span_of_notMem (d := ' ')
    (a.key ++ '=' :: '"' :: (a.raw ++ '"' :: tail))
    fun c hc => hname.ne_of_alphanum hc rfl
  obtain ⟨hkeyTake, hkeyDrop⟩ := span_of_notMem (d := '=') ('"' :: (a.raw ++ '"' :: tail))
    fun c hc => ha.key.ne_of_alphanum hc rfl
  obtain ⟨hrawTake, hrawDrop⟩ := span_of_notMem (d := '"') tail
    fun c hc => (ha.raw c hc).1
  rw [hshape, readBody_name hname, hnameDrop, hnameTake]
  simp only [hkeyTake, hkeyDrop, List.drop_succ_cons, List.drop_zero, hrawTake, hrawDrop]

theorem readBody_body {m : Markup} (h : m.Proper) (hspace : ∀ s, m ≠ .space s) :
    readBody m.body = m.event := by
  cases m with
  | decl => rfl
  | stop name => rfl
  | space s => exact absurd rfl (hspace s)
  | empty name a =>
    show readBody (name ++ Markup.renderAttribute a ++ [' ', '/']) = _
    rw [List.append_assoc, readBody_attribute h.1 h.2]
    rfl
  | start name attrib =>
    cases attrib with
    | some a =>
      have hread := readBody_attribute h.1 (h.2 a rfl) []
      rw [List.append_nil] at hread
      exact hread
    | none =>
      have hall : ∀ c ∈ name, decide (c ≠ ' ') = true :=
        fun c hc => decide_eq_true (h.1.ne_of_alphanum hc rfl)
      show readBody (name ++ []) = _
      rw [readBody_name h.1, List.append_nil, List.dropWhile_eq_nil_iff.mpr hall,
        List.takeWhile_eq_self_iff.mpr hall]
      rfl

theorem readFrom_body {b : Text} (h : ∀ c ∈ b, c ≠ '>') : ∀ acc rest,
    readFrom true acc (b ++ '>' :: rest) =
      match readBody (acc ++ b), readFrom false [] rest with
      | some event, some events => some (event :: events)
      | _, _ => none := by
  induction b with
  | nil =>
    intro acc rest
    rw [List.nil_append, readFrom, if_pos rfl, List.append_nil]
  | cons c b ih =>
    intro acc rest
    rw [List.cons_append, readFrom, if_neg (h c (.head _)),
      ih (fun d hd => h d (.tail _ hd)), List.append_assoc]
    rfl

section

variable (h : ∀ c ∈ s, isWhitespace c = true)
include h

theorem readFrom_space : ∀ acc rest,
    readFrom false acc (s ++ rest) = readFrom false (acc ++ s) rest := by
  induction s with
  | nil =>
    intro acc rest
    rw [List.nil_append, List.append_nil]
  | cons c s ih =>
    intro acc rest
    have hc : c ≠ '<' := by
      intro heq
      have hws := h c (.head _)
      rw [heq] at hws
      exact absurd hws (by decide)
    rw [List.cons_append, readFrom, if_neg hc,
      ih (fun d hd => h d (.tail _ hd)), List.append_assoc]
    rfl

theorem isBlank_of_whitespace : isBlank s = true := by
  have hstart : trimStart s = [] := List.dropWhile_eq_nil_iff.mpr h
  show (trimEnd (trimStart s)).isEmpty = true
  rw [hstart]
  rfl

theorem filter_flush : (flush s).filter (fun e => !e.isSpace) = [] := by
  unfold flush
  split
  · rfl
  · show List.filter _ [XmlEvent.text s] = []
    rw [List.filter_cons, show XmlEvent.isSpace (.text s) = true from isBlank_of_whitespace h]
    rfl

end

theorem notMem_body {m : Markup} (h : m.Proper) : ∀ c ∈ m.body, c ≠ '>' := by
  have hattribute : ∀ a : XmlAttribute, a.Proper → ∀ c ∈ Markup.renderAttribute a, c ≠ '>' := by
    intro a ha c hc
    simp only [Markup.renderAttribute, List.mem_append, List.mem_cons, List.not_mem_nil,
      or_false] at hc
    rcases hc with ((rfl | hc) | rfl | rfl | hc) | rfl
    · decide
    · exact ha.key.ne_of_alphanum hc rfl
    · decide
    · decide
    · exact (ha.raw c hc).2.2
    · decide
  intro c hc
  cases m with
  | decl =>
    have hall : (Markup.decl.body.all fun d => d ≠ '>') = true := by decide
    exact of_decide_eq_true (List.all_eq_true.mp hall c hc)
  | stop name =>
    rcases List.mem_cons.mp hc with rfl | hc
    · decide
    · exact h.ne_of_alphanum hc rfl
  | space s => cases hc
  | empty name a =>
    rcases List.mem_append.mp hc with hc | hc
    · rcases List.mem_append.mp hc with hc | hc
      · exact h.1.ne_of_alphanum hc rfl
      · exact hattribute a h.2 c hc
    · have hall : ([' ', '/'].all fun d => d ≠ '>') = true := by decide
      exact of_decide_eq_true (List.all_eq_true.mp hall c hc)
  | start name attrib =>
    rcases List.mem_append.mp hc with hc | hc
    · exact h.1.ne_of_alphanum hc rfl
    · cases attrib with
      | none => cases hc
      | some a => exact hattribute a (h.2 a rfl) c hc

/-- **The reader gives the pieces of the document**, and otherwise only white space. -/
theorem readMarkup_render {doc : List Markup} (h : ∀ m ∈ doc, m.Proper) :
    ∃ events, readMarkup (doc.flatMap Markup.render) = some events ∧
      events.filter (fun e => !e.isSpace) = doc.filterMap Markup.event := by
  have hfrom : ∀ content : Text, (∀ c ∈ content, isWhitespace c = true) →
      ∃ events, readFrom false content (doc.flatMap Markup.render) = some events ∧
        events.filter (fun e => !e.isSpace) = doc.filterMap Markup.event := by
    induction doc with
    | nil =>
      intro content hcontent
      exact ⟨flush content, rfl, filter_flush hcontent⟩
    | cons m doc ih =>
      intro content hcontent
      have hm := h m (.head _)
      have hdoc := ih fun m' hm' => h m' (.tail _ hm')
      rw [List.flatMap_cons]
      by_cases hspace : ∃ s, m = .space s
      · obtain ⟨s, rfl⟩ := hspace
        rw [show Markup.render (.space s) = s from rfl, readFrom_space hm, List.filterMap_cons]
        refine hdoc (content ++ s) ?_
        intro c hc
        exact (List.mem_append.mp hc).elim (hcontent c) (hm c)
      · have hne : ∀ s, m ≠ .space s := fun s heq => hspace ⟨s, heq⟩
        have hrender : m.render = '<' :: m.body ++ ['>'] := by
          cases m <;> first | rfl | exact absurd rfl (hne _)
        obtain ⟨events, hevents, hfilter⟩ := hdoc [] fun c hc => (nomatch hc)
        obtain ⟨event, hevent, hshown⟩ : ∃ event, m.event = some event ∧ event.isSpace = false := by
          cases m <;> first | exact ⟨_, rfl, rfl⟩ | exact absurd rfl (hne _)
        refine ⟨flush content ++ event :: events, ?_, ?_⟩
        · rw [hrender, List.cons_append, List.cons_append, readFrom, if_pos rfl, List.append_assoc,
            List.singleton_append, readFrom_body (notMem_body hm), List.nil_append,
            readBody_body hm hne, hevent, hevents]
          rfl
        · rw [List.filter_append, filter_flush hcontent, List.filter_cons, hshown, hfilter,
            List.filterMap_cons, hevent]
          rfl
  exact hfrom [] fun c hc => (nomatch hc)

end BasisRust.Library
