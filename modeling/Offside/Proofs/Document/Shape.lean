import Offside.Proofs.Line.Progress
import Offside.Proofs.Markup.Autotags
import Offside.Proofs.Markup.Faults

/-!
# The shape of parsed documents

Trees can be built in more ways than templates are read. `Node.Shaped` is what holds of
every node that is read from a template: none is a group, verbatim code and hidden comments
have one text below them, filters are applied to a text, and the attributes of a tag start
with `id`, with `class` as a list of names if it is set.

The lines of nodes come from lexemes, or from the line that the stream has reached when it
has looked one lexeme ahead. `Laid` says of some nodes that they are shaped and that their
lines go on from one bound to another. What is read is laid from the line where it starts to
the line where it ends (`Phrase.Lays`). Reading that fails raises one of three errors
(`Intended`).
-/

set_option autoImplicit false

namespace Offside

/-! ### Nodes -/

/-- The line of a node. -/
def Node.line : Node → Nat
  | .group b => b.line
  | .tag t => t.line
  | .text t => t.line
  | .code c => c.line
  | .comment c => c.line
  | .doctype d => d.line
  | .filter f => f.line

/-- The attributes of a tag that is read from a template: `id` comes first, and `class` is a
list of names. -/
structure Attributes.Shaped (as : Attributes) : Prop where
  first : as.keys.head? = some "id"
  names : ∀ value, as.get? "class" = some value → ∃ names, names ≠ [] ∧ value = .list names

/-- A block that holds one text and nothing else. -/
def Block.IsText (b : Block) : Prop :=
  ∃ text, b.children = [.text text]

/-- What holds of a node by itself if it is read from a template. -/
def Node.Shaped : Node → Prop
  | .group _ => False
  | .tag t => t.attributes.Shaped
  | .text _ => True
  | .code c =>
    (c.verbatim = true ↔ c.buffered = false ∧ c.expression.toList.getLast? = some '\\') ∧
    (c.verbatim = true → ∃ b, c.block = some b ∧ b.IsText)
  | .comment c => c.buffered = false → ∀ b ∈ c.block, b.IsText
  | .doctype _ => True
  | .filter f => ∃ t, f.body = .text t

/-- Nodes that are shaped, with lines that go on from one line to another. -/
inductive Laid : Nat → List Node → Nat → Prop
  | nil {first last : Nat} (h : first ≤ last) : Laid first [] last
  | cons {first last : Nat} {node : Node} {nodes : List Node} (hline : first ≤ node.line)
      (hnode : node.Shaped) (h : Laid node.line nodes last) : Laid first (node :: nodes) last

namespace Laid

variable {first middle last : Nat} {node : Node} {xs ys : List Node}

theorem mono_left {first' : Nat} (h : Laid first xs last) (hle : first' ≤ first) :
    Laid first' xs last := by
  cases h with
  | nil h => exact .nil (Nat.le_trans hle h)
  | cons hline hnode h => exact .cons (Nat.le_trans hle hline) hnode h

/-- Nodes that are laid one behind the other are laid together. -/
theorem append (hxs : Laid first xs middle) (hys : Laid middle ys last) :
    Laid first (xs ++ ys) last := by
  induction hxs with
  | nil h => exact hys.mono_left h
  | cons hline hnode _ ih => exact .cons hline hnode (ih hys)

theorem mono_right {last' : Nat} (h : Laid first xs last) (hle : last ≤ last') :
    Laid first xs last' := by
  have happend := h.append (.nil hle)
  rwa [List.append_nil] at happend

theorem single (hline : first ≤ node.line) (hnode : node.Shaped) (hlast : node.line ≤ last) :
    Laid first [node] last :=
  .cons hline hnode (.nil hlast)

theorem shaped (h : Laid first xs last) : ∀ node ∈ xs, node.Shaped := by
  induction h with
  | nil h => exact nofun
  | cons hline hnode _ ih => exact List.forall_mem_cons.2 ⟨hnode, ih⟩

/-- Lines never decrease. -/
theorem pairwise (h : Laid first xs last) : (first :: xs.map Node.line).Pairwise (· ≤ ·) := by
  induction h with
  | nil h => exact List.pairwise_singleton _ _
  | cons hline hnode hrest ih =>
    refine .cons (fun line hmem => ?_) ih
    rcases List.mem_cons.1 hmem with rfl | hmem
    · exact hline
    · exact hline.trans (List.rel_of_pairwise_cons ih hmem)

end Laid

/-! ### Pre-order -/

/-- The nodes at some places. -/
def Place.nodes (places : List Place) : List Node :=
  places.map (·.node)

/-- The places of a node are its own and those inside it. -/
theorem Place.nodes_enclosing (node : Node) (inner : List Place) :
    nodes (node.enclosing inner) = node :: nodes inner := by
  simp [nodes, Node.enclosing, Place.inside]

theorem Place.nodes_append (xs ys : List Place) : nodes (xs ++ ys) = nodes xs ++ nodes ys :=
  List.map_append

/-- A node and the nodes inside it, in pre-order. -/
def Node.preorder (node : Node) : List Node :=
  node :: Place.nodes node.inner

/-- The nodes at the places of a list come node by node. -/
theorem Node.nodes_placesOf (nodes : List Node) :
    Place.nodes (placesOf nodes) = nodes.flatMap preorder := by
  induction nodes with
  | nil => rfl
  | cons node nodes ih =>
    rw [placesOf, Place.nodes_append, Place.nodes_enclosing, ih]
    rfl

theorem Block.nodes_places (b : Block) :
    Place.nodes b.places = b.children.flatMap Node.preorder := by
  obtain ⟨line, children⟩ := b
  rw [places, Node.nodes_placesOf]

/-- Inside a tag, the code on its line comes first, then its text and then its block. -/
theorem Tag.nodes_inner (e : Element) (text : Option Text) (code : Option Code) (children : Block) :
    Place.nodes (Tag.mk e text code children).inner =
      code.toList.flatMap (Node.preorder ∘ .code) ++ text.toList.map .text ++
        Place.nodes children.places := by
  have htext : Place.nodes (text.toList.map fun text => { node := .text text }) =
      text.toList.map .text := by
    cases text <;> rfl
  cases code with
  | none =>
    rw [inner, Place.nodes_append, Place.nodes_append, htext]
    rfl
  | some code =>
    rw [inner, Place.nodes_append, Place.nodes_append, htext, Place.nodes_enclosing]
    simp [Node.preorder, Node.inner]

/-! ### Attributes -/

namespace Attributes

theorem shaped_fresh : Element.freshAttributes.Shaped where
  first := rfl
  names := by
    intro value h
    cases h

variable {key : String} {value : Attribute.Value}

/-- Shape is kept by setting any key, if `class` is set to a list that is not empty. -/
theorem Shaped.insert {as : Attributes} (h : as.Shaped)
    (hvalue : key = "class" → ∃ names, names ≠ [] ∧ value = .list names) :
    (as.insert key value).Shaped := by
  constructor
  · rw [keys_insert]
    split
    · exact h.first
    · rw [List.head?_append, h.first]
      rfl
  · intro value' hget
    rw [get?_insert] at hget
    split at hget
    · next hkey =>
      obtain rfl := Option.some.inj hget
      exact hvalue hkey.symm
    · exact h.names value' hget

/-- Setting an attribute keeps the shape, unless an empty list is added to `class`. -/
theorem Shaped.setAttribute {e : Element} (h : e.attributes.Shaped) (hvalue : value ≠ .list []) :
    (e.setAttribute key value).attributes.Shaped := by
  unfold Element.setAttribute
  split
  · split
    -- A switch is no class name, and nothing is set.
    · exact h
    · next names hnames =>
      refine h.insert fun _ => ⟨_, ?_, rfl⟩
      -- What is added to the names is not empty by itself.
      have hne : names ≠ [] := by
        rintro rfl
        cases value with
        | flag on => cases hnames
        | text name => cases hnames
        | list items => exact hvalue (congrArg _ (Option.some.inj hnames))
      exact List.append_ne_nil_of_right_ne_nil _ hne
  · next hkey => exact h.insert fun heq => absurd heq hkey

/-- Shape is kept by a run of such settings. -/
theorem Shaped.setAttributes {e : Element} (h : e.attributes.Shaped)
    {entries : List Attribute.Entry} (hentries : ∀ entry ∈ entries, entry.2 ≠ .list []) :
    (e.setAttributes entries).attributes.Shaped := by
  induction entries generalizing e with
  | nil => exact h
  | cons entry entries ih =>
    obtain ⟨hentry, hothers⟩ := List.forall_mem_cons.1 hentries
    exact ih (h.setAttribute hentry) hothers

/-- What is found among entries was there before or was set. -/
theorem mem_entries_insert {as : Attributes} :
    ∀ entry ∈ (as.insert key value).entries, entry ∈ as.entries ∨ entry = (key, value) := by
  intro entry hentry
  have hset : entry ∈ Entries.set key value as.entries := hentry
  generalize as.entries = entries at hset ⊢
  induction entries with
  | nil => exact .inr (List.mem_singleton.1 hset)
  | cons first entries ih =>
    rw [Entries.set] at hset
    split at hset
    · next hkey =>
      rcases List.mem_cons.1 hset with rfl | hmem
      · exact .inr (by rw [eq_of_beq hkey])
      · exact .inl (.tail _ hmem)
    · rcases List.mem_cons.1 hset with rfl | hmem
      · exact .inl (.head _)
      · exact (ih hmem).imp_left (.tail _)

/-- Entries made into attributes are among those given. -/
theorem mem_of_mem_ofList {entries : List Attribute.Entry} :
    ∀ entry ∈ (ofList entries).entries, entry ∈ entries := by
  have hfold : ∀ (entries : List Attribute.Entry) (as : Attributes),
      ∀ entry ∈ (entries.foldl (fun as entry => as.insert entry.1 entry.2) as).entries,
        entry ∈ as.entries ∨ entry ∈ entries := by
    intro entries
    induction entries with
    | nil => exact fun as entry hentry => .inl hentry
    | cons first entries ih =>
      intro as entry hentry
      rcases ih _ entry hentry with hmem | hmem
      · rcases mem_entries_insert entry hmem with hmem | rfl
        · exact .inl hmem
        · exact .inr List.mem_cons_self
      · exact .inr (.tail _ hmem)
  exact fun entry hentry => (hfold entries empty entry hentry).resolve_left List.not_mem_nil

/-- An attribute list gives switches and texts. -/
theorem ne_list_of_mem_entriesOf (raw : String) :
    ∀ entry ∈ Attribute.entriesOf raw, entry.2 ≠ .list [] := by
  intro entry hentry
  obtain ⟨hmem, -⟩ := List.mem_filter.1 hentry
  obtain ⟨piece, -, rfl⟩ := List.mem_map.1 hmem
  have hvalue : ∀ p raw, Attribute.Value.ofRaw p raw ≠ .list [] := by
    intro p raw
    unfold Attribute.Value.ofRaw
    dsimp only
    repeat' split
    all_goals exact Attribute.Value.noConfusion
  unfold Attribute.Entry.ofRaw
  cases Attribute.divide? piece with
  | none => exact Attribute.Value.noConfusion
  | some parts => exact hvalue _ _

end Attributes

/-! ### Lexemes -/

/-- An attribute list that says what its text says. -/
def Lexeme.Decoded (l : Lexeme) : Prop :=
  ∀ raw as, l.token = .attributes raw as → as = Attributes.parse raw

variable {s : Scanner}

/-- Attribute lists are decoded when they are read. -/
theorem Scanner.decoded_of_readInline {cs : List Char} {t : Token}
    {r : Character.Rest cs} (h : s.readInline cs = some (t, r)) (line : Nat) :
    Lexeme.Decoded ⟨t, line⟩ := by
  -- Whatever is of another kind is no attribute list.
  have hother : ∀ {kind : Token.Kind}, t.kind = kind → kind ≠ .attributes →
      Lexeme.Decoded ⟨t, line⟩ := by
    rintro kind rfl hne raw as htoken
    obtain rfl : t = .attributes raw as := htoken
    exact absurd rfl hne
  have htext : ∀ value, t = .text value → Lexeme.Decoded ⟨t, line⟩ :=
    fun value ht => hother (show t.kind = .text by rw [ht]; rfl) (by decide)
  unfold readInline at h
  rcases Option.or_eq_some_iff.1 h with h | ⟨-, h⟩
  · unfold readVerbatim at h
    split at h
    · cases h
    · split at h
      · cases h
      · obtain ⟨⟨body, rest⟩, -, h⟩ := Option.map_eq_some_iff.1 h
        exact htext _ (Prod.mk.inj h).1.symm
  · rcases Option.or_eq_some_iff.1 h with h | ⟨-, h⟩
    · obtain ⟨reader, hmem, h⟩ := List.exists_of_findSome?_eq_some h
      simp only [Token.readers, List.mem_cons, List.not_mem_nil, or_false] at hmem
      obtain rfl | rfl | rfl | rfl | rfl | rfl | rfl | rfl | rfl | rfl := hmem
      · exact hother (Token.reads_doctype h) (by decide)
      · exact hother (Token.reads_tag h) (by decide)
      · exact hother (Token.reads_pipe h) (by decide)
      · exact hother (Token.reads_markup h) (by decide)
      · exact hother (Token.reads_filter h) (by decide)
      · exact hother (Token.reads_code h) (by decide)
      · exact hother (Token.reads_comment h) (by decide)
      · exact hother (Token.reads_idName h) (by decide)
      · exact hother (Token.reads_className h) (by decide)
      · unfold Token.readAttributes at h
        split at h
        · split at h
          · obtain ⟨out, -, heq⟩ := Option.map_eq_some_iff.1 h
            cases heq
            intro raw as htoken
            obtain ⟨rfl, rfl⟩ := Token.attributes.inj htoken
            rfl
          · cases h
        · cases h
    · unfold Token.readInlineText at h
      split at h
      · obtain ⟨⟨body, rest⟩, -, h⟩ := Option.map_eq_some_iff.1 h
        exact htext _ (Prod.mk.inj h).1.symm
      · cases h

/-- A step gives a token that is read inside a line, or one that is not inside a line at all.
-/
theorem Scanner.Step.holds {P : Token → Prop} (hlevel : ∀ t : Token, t.kind.isInline = false → P t)
    (hinline : ∀ {s : Scanner} {cs : List Char} {t : Token} {r : Character.Rest cs},
      s.readInline cs = some (t, r) → P t)
    {s' : Scanner} {l : Lexeme} (hs : s.Sound) (hstep : Step s (.ok l) s') : P l.token := by
  cases hstep with
  | deferred l ls hdeferred =>
    obtain rfl := hs.deferred l (by simp [hdeferred])
    exact hlevel _ rfl
  | token c cs token rest hdeferred hrest hc hread => exact hinline hread
  | _ => exact hlevel _ rfl

/-- What holds of every token that is read inside a line, and of all others, holds of the
lexemes of a template. -/
theorem Scanner.forall_mem_tape {P : Token → Prop}
    (hlevel : ∀ t : Token, t.kind.isInline = false → P t)
    (hinline : ∀ {s : Scanner} {cs : List Char} {t : Token} {r : Character.Rest cs},
      s.readInline cs = some (t, r) → P t) (hs : s.Sound) : ∀ l ∈ s.tape.lexemes, P l.token := by
  induction s using tape_induction with
  | error s e s' hnext =>
    rw [tape_of_error hnext]
    exact nofun
  | eos s l s' hnext hl =>
    rw [tape_of_eos hnext hl]
    exact List.forall_mem_singleton.2 ((Step.of_next hnext).holds hlevel hinline hs)
  | step s l s' hnext hl ih =>
    have hstep := Step.of_next hnext
    rw [tape_of_ok hnext hl, Tape.lexemes_cons]
    exact List.forall_mem_cons.2 ⟨hstep.holds hlevel hinline hs, ih (hs.step hstep)⟩

/-- All lexemes of a template are decoded. -/
theorem Scanner.decoded_of_mem_tape (hs : s.Sound) : ∀ l ∈ s.tape.lexemes, l.Decoded := by
  have hlevel : ∀ t : Token, t.kind.isInline = false → ∀ line, Lexeme.Decoded ⟨t, line⟩ := by
    intro t ht line raw as htoken
    obtain rfl : t = .attributes raw as := htoken
    cases ht
  exact fun l hl => forall_mem_tape hlevel decoded_of_readInline hs l hl l.line

/-! ### Cursors -/

namespace Reading

/-- The errors that reading a template can raise: what is wrong with its lexemes, a text that
is missing, and an attribute list that belongs to no tag. -/
inductive Intended : ParseError → Prop
  | scan (e : ScanError) : Intended (.scan e)
  | text (found : Token.Kind) (line : Nat) (h : isTextual found = false) :
    Intended (.unexpectedToken .indent found line)
  | attributes (line : Nat) : Intended (.unknownToken .attributes line)

/-- A cursor in lexemes as they are scanned: lines go on from that of the cursor. -/
structure Cursor.Ordered (c : Cursor) : Prop where
  lines : (c.line :: c.rest.map (·.line)).Pairwise (· ≤ ·)
  decoded : ∀ l ∈ c.rest, l.Decoded

/-- A cursor further on in such lexemes. -/
structure Cursor.Leads (c c' : Cursor) : Prop where
  ordered : c'.Ordered
  le : c.line ≤ c'.line

namespace Cursor

variable {c c' c'' : Cursor}

theorem Ordered.decoded_next (h : c.Ordered) (hne : c.next.kind ≠ .eos) : c.next.Decoded :=
  h.decoded _ (by rw [rest_eq_of_next hne]; exact .head _)

/-- The lines that are left go on from that of the next lexeme, which is not in front of that of
the cursor. -/
theorem Ordered.lines_next (h : c.Ordered) : c.line ≤ c.next.line ∧
    (c.next.line :: c.take.rest.map (·.line)).Pairwise (· ≤ ·) ∧
    (c.next.line :: c.rest.map (·.line)).Pairwise (· ≤ ·) := by
  have hlines := h.lines
  cases hrest : c.rest with
  | nil => simp [next, Cursor.take, drop, hrest]
  | cons l rest =>
    rw [hrest, List.map_cons, List.pairwise_cons] at hlines
    have hle := hlines.1 l.line List.mem_cons_self
    simpa [next, Cursor.take, drop, hrest, hle] using hlines.2

theorem Ordered.line_le_next (h : c.Ordered) : c.line ≤ c.next.line :=
  h.lines_next.1

theorem Ordered.take (h : c.Ordered) : c.Leads c.take :=
  ⟨⟨h.lines_next.2.1, fun l hl => h.decoded l (List.mem_of_mem_drop hl)⟩, h.line_le_next⟩

theorem Ordered.seen (h : c.Ordered) : c.Leads c.seen :=
  ⟨⟨h.lines_next.2.2, h.decoded⟩, h.line_le_next⟩

/-- Lines go on wherever the cursor moves. -/
theorem Ordered.moves (hmove : Moves c c') (h : c.Ordered) : c.Leads c' := by
  cases hmove with
  | seen => exact h.seen
  | take => exact h.take
  | close start => exact ⟨⟨h.take.ordered.lines, h.take.ordered.decoded⟩, h.take.le⟩

end Cursor

/-- Whatever is read, lines go on from the cursor it starts at to the one it ends at. -/
theorem Reads.leads {p : Phrase} {c c' : Cursor} {a : p.Value} (hreads : Reads p c a c')
    (h : c.Ordered) : c.Leads c' := by
  refine hreads.keeps (fun c₁ c₂ hmove hlead => ?_) ⟨h, Nat.le_refl _⟩
  have hmoved := hlead.ordered.moves hmove
  exact ⟨hmoved.ordered, Nat.le_trans hlead.le hmoved.le⟩

/-! ### Marks and texts -/

/-- A mark leaves the line of a tag alone. -/
theorem line_mark (e : Element) (l : Lexeme) : (mark e l).line = e.line := by
  unfold mark
  split
  · next name _ => exact e.line_setAttributes [("id", .text name)]
  · next name _ => exact e.line_setAttributes [("class", .text name)]
  · exact e.line_setAttributes _
  · rfl

variable {e : Element}

/-- A mark keeps the shape of the attributes. -/
theorem shaped_mark {l : Lexeme} (he : e.attributes.Shaped) (hl : l.Decoded) :
    (mark e l).attributes.Shaped := by
  unfold mark
  split
  · exact he.setAttribute Attribute.Value.noConfusion
  · exact he.setAttribute Attribute.Value.noConfusion
  · next raw as htoken =>
    rw [hl raw as htoken]
    refine he.setAttributes fun entry hentry => ?_
    exact Attributes.ne_list_of_mem_entriesOf raw entry (Attributes.mem_of_mem_ofList entry hentry)
  · exact he

/-- So do any number of marks. -/
theorem foldl_mark {ls : List Lexeme} (he : e.attributes.Shaped) (hls : ∀ l ∈ ls, l.Decoded) :
    (ls.foldl mark e).line = e.line ∧ (ls.foldl mark e).attributes.Shaped := by
  induction ls generalizing e with
  | nil => exact ⟨rfl, he⟩
  | cons l ls ih =>
    obtain ⟨hl, hls⟩ := List.forall_mem_cons.1 hls
    obtain ⟨hline, hshaped⟩ := ih (shaped_mark he hl) hls
    exact ⟨hline.trans (line_mark e l), hshaped⟩

theorem line_foldl_addTo (text : Text) (ls : List Lexeme) :
    (ls.foldl addTo text).line = text.line := by
  induction ls generalizing text with
  | nil => rfl
  | cons l ls ih =>
    have hline : (addTo text l).line = text.line := by
      unfold addTo
      split <;> rfl
    exact (ih _).trans hline

/-! ### Nodes and blocks -/

variable {last : Nat}

/-- A tag with its code, its text and its block, one behind the other. -/
theorem laid_tag {text : Option Text} {code : Option Code} {children : Block}
    {middle behind : Nat} (he : e.attributes.Shaped)
    (hcode : Laid e.line (code.toList.flatMap (Node.preorder ∘ .code)) middle)
    (htext : ∀ t ∈ text, middle ≤ t.line ∧ t.line ≤ behind) (hle : middle ≤ behind)
    (hchildren : Laid behind (Place.nodes children.places) last) :
    Laid e.line (Node.tag ⟨e, text, code, children⟩).preorder last := by
  have hlaid : Laid middle (text.toList.map .text) behind := by
    cases text with
    | none => exact .nil hle
    | some t => exact .single (htext t rfl).1 trivial (htext t rfl).2
  refine .cons (Nat.le_refl _) he ?_
  show Laid e.line (Place.nodes (Tag.mk e text code children).inner) last
  rw [Tag.nodes_inner]
  exact (hcode.append hlaid).append hchildren

/-- Code with the block below it. -/
theorem laid_code {head : Statement} {block : Option Block}
    (hhead : head.verbatim = (Token.code head.expression head.buffered).opensVerbatim)
    (hverbatim : head.verbatim = true → ∃ b, block = some b ∧ b.IsText) (hle : head.line ≤ last)
    (hblock : ∀ b ∈ block, Laid head.line (Place.nodes b.places) last) :
    Laid head.line (Node.code ⟨head, block⟩).preorder last := by
  refine .cons (Nat.le_refl _) ⟨?_, hverbatim⟩ ?_
  -- The scanner decides by the same test whether a verbatim region starts.
  · show head.verbatim = true ↔ _
    rw [hhead]
    simp [Token.opensVerbatim]
  · cases block with
    | none => exact .nil hle
    | some b => exact hblock b rfl

/-- A comment with the block below it. -/
theorem laid_comment {head : Remark} {block : Option Block}
    (hhidden : head.buffered = false → ∀ b ∈ block, b.IsText) (hle : head.line ≤ last)
    (hblock : ∀ b ∈ block, Laid head.line (Place.nodes b.places) last) :
    Laid head.line (Node.comment ⟨head, block⟩).preorder last := by
  refine .cons (Nat.le_refl _) hhidden ?_
  cases block with
  | none => exact .nil hle
  | some b => exact hblock b rfl

/-- A block with a text is laid around the line of the text. -/
theorem laid_textBlock {text : Text} {line first : Nat} (hfirst : first ≤ text.line)
    (hlast : text.line ≤ last) :
    Laid first (Place.nodes (Block.mk line [.text text]).places) last := by
  rw [Block.nodes_places]
  exact .single hfirst trivial hlast

/-- What is read is laid from the line where it starts to the line where it ends. The text of a
verbatim region is on the line where it starts, and behind the code on the line of a tag comes
its text. -/
def Phrase.Lays : (p : Phrase) → Cursor → p.Value → Cursor → Prop
  | run _, _, taken, c' => (∀ l ∈ taken, l.Decoded) ∧ c'.line = c'.next.line
  | text, c, t, _ => t.line = c.line
  | filter _ line, c, f, c' => line ≤ c.line → Laid line (Node.filter f).preorder c'.line
  | node, c, n, c' => Laid c.line (n.toList.flatMap Node.preorder) c'.line
  | tag e, c, t, c' =>
    e.attributes.Shaped → e.line ≤ c.line → Laid e.line (Node.tag t).preorder c'.line
  | inline, c, x, c' => c.line = c.next.line →
    ∃ middle, Laid c.line (x.2.toList.flatMap (Node.preorder ∘ .code)) middle ∧
      middle ≤ c'.line ∧ ∀ t ∈ x.1, middle ≤ t.line ∧ t.line ≤ c'.line
  | code head, c, x, c' =>
    head.verbatim = (Token.code head.expression head.buffered).opensVerbatim →
    head.line ≤ c.line → Laid head.line (Node.code x).preorder c'.line
  | comment head, c, x, c' => head.line ≤ c.line → Laid head.line (Node.comment x).preorder c'.line
  | below, c, block, c' => ∀ b ∈ block, Laid c.line (Place.nodes b.places) c'.line
  | nodes, c, ns, c' | document, c, ns, c' => Laid c.line (ns.flatMap Node.preorder) c'.line

/-- By induction on what is read. Each part of a node is laid from the cursor it starts at, and
`Reads.leads` says that the next part starts at no earlier line. -/
theorem Reads.lays {p : Phrase} {c c' : Cursor} {a : p.Value} (hreads : Reads p c a c')
    (h : c.Ordered) : p.Lays c a c' := by
  -- A node by itself is a list of one, and starts on the line of its first lexeme.
  have hsome : ∀ {n : Node} {c c' : Cursor}, c.Ordered → Laid c.next.line n.preorder c'.line →
      Phrase.node.Lays c (some n) c' := by
    intro n c c' h hn
    show Laid c.line ((some n).toList.flatMap Node.preorder) c'.line
    simpa using hn.mono_left h.line_le_next
  induction hreads with
  | @stop p c _ _ => exact ⟨List.forall_mem_nil _, by rw [Cursor.next_seen]; rfl⟩
  | more hp heos hreads ih =>
    obtain ⟨htaken, hline⟩ := ih h.take.ordered
    exact ⟨List.forall_mem_cons.2 ⟨h.decoded_next heos, htaken⟩, hline⟩
  | text => exact line_foldl_addTo _ _
  | filterList htoken hreads ih =>
    intro hline
    have htext : _ = _ := ih h.take.ordered
    refine .cons (Nat.le_refl _) ⟨_, rfl⟩ (.single ?_ trivial ?_)
    · exact (hline.trans h.take.le).trans_eq htext.symm
    · exact htext.trans_le (hreads.leads h.take.ordered).le
  | filterText _ _ hreads ih =>
    intro hline
    have htext : _ = _ := ih h.seen.ordered
    refine .cons (Nat.le_refl _) ⟨_, rfl⟩ (.single ?_ trivial ?_)
    · exact (hline.trans h.seen.le).trans_eq htext.symm
    · exact htext.trans_le (hreads.leads h.seen.ordered).le
  | element htoken hreads ih =>
    exact hsome h (ih h.take.ordered Attributes.shaped_fresh (Nat.le_refl _))
  | @shorthand c c' t hkind hreads ih =>
    -- The line of the tag is that of the shorthand, which marks it.
    have hmark := line_mark (.ofName "div" c.next.line) c.next
    have hdecoded := h.decoded_next (Reads.shorthand hkind hreads).ready.1
    have htag := ih h.take.ordered (shaped_mark Attributes.shaped_fresh hdecoded) hmark.le
    rw [hmark] at htag
    exact hsome h htag
  | doctype | words => exact hsome h (.single (Nat.le_refl _) trivial (Nat.le_refl _))
  | filter _ _ ih => exact hsome h (ih h.take.ordered (Nat.le_refl _))
  | pipe _ hreads ih =>
    have htext : _ = _ := ih h.take.ordered
    refine hsome h (.single ?_ trivial ?_)
    · exact htext.ge
    · exact htext.trans_le (hreads.leads h.take.ordered).le
  | comment _ _ ih => exact hsome h (ih h.take.ordered (Nat.le_refl _))
  | code _ _ ih => exact hsome h (ih h.take.ordered rfl (Nat.le_refl _))
  | indent => exact .nil h.take.le
  | @tag e c c₁ c₂ c₃ c' marks _ text _ block hmarks hinline hnewlines hbelow
      ihmarks ihinline ihnewlines ihbelow =>
    intro he hline
    have hc₁ := hmarks.leads h
    have hc₂ := hinline.leads hc₁.ordered
    have hc₃ := hnewlines.leads hc₂.ordered
    obtain ⟨hdecoded, hnext⟩ := ihmarks h
    obtain ⟨middle, hcode, hmiddle, htext⟩ := ihinline hc₁.ordered hnext
    obtain ⟨he'line, he'⟩ := foldl_mark he hdecoded
    rw [← he'line]
    refine laid_tag he' (hcode.mono_left (he'line ▸ hline.trans hc₁.le)) ?_
      (hmiddle.trans hc₃.le) ?_
    · -- The text of the tag, or an empty line where the block starts.
      intro t ht
      split at ht
      · obtain rfl := Option.some.inj ht
        cases text with
        | none => exact ⟨hmiddle.trans hc₃.le, Nat.le_refl _⟩
        | some t => exact ⟨(htext t rfl).1, (htext t rfl).2.trans hc₃.le⟩
      · exact ⟨(htext t ht).1, (htext t ht).2.trans hc₃.le⟩
    · cases block with
      | none => exact .nil (hbelow.leads hc₃.ordered).le
      | some b => exact ihbelow hc₃.ordered b rfl
  | @inlineText c value htoken =>
    -- The text is on the line of its lexeme, which is also where the cursor is then.
    intro hline
    refine ⟨c.line, .nil (Nat.le_refl _), h.take.le, fun t ht => ?_⟩
    obtain rfl := Option.some.inj ht
    exact ⟨hline.le, Nat.le_refl _⟩
  | @inlineCode c c' _ _ x _ _ ih =>
    -- Code on the line of a tag may have a block, and no text comes behind it.
    intro hline
    refine ⟨c'.line, ?_, Nat.le_refl _, nofun⟩
    have hcode : Laid c.next.line (Node.code x).preorder c'.line :=
      ih h.take.ordered rfl (Nat.le_refl _)
    simpa using hcode.mono_left hline.le
  | inlineNone =>
    intro _
    exact ⟨_, .nil (Nat.le_refl _), Nat.le_refl _, nofun⟩
  | @codeText head c c₁ c' _ t _ hnewlines htext ihnewlines ih =>
    intro hhead hline
    have hc₁ := hnewlines.leads h
    have hc' := htext.leads hc₁.ordered
    have hle : head.line ≤ c₁.line := hline.trans hc₁.le
    have ht : t.line = c₁.line := ih hc₁.ordered
    refine laid_code hhead (fun _ => ⟨_, rfl, t, rfl⟩) (hle.trans hc'.le) fun b hb => ?_
    obtain rfl := Option.some.inj hb
    exact laid_textBlock (hle.trans_eq ht.symm) (ht.trans_le hc'.le)
  | @codeBlock head c c₁ c' _ _ hverbatim hnewlines hbelow _ ih =>
    intro hhead hline
    have hc₁ := hnewlines.leads h
    have hle : head.line ≤ c₁.line := hline.trans hc₁.le
    refine laid_code hhead (fun htrue => ?_) (hle.trans (hbelow.leads hc₁.ordered).le)
      fun b hb => (ih hc₁.ordered b hb).mono_left hle
    rw [hverbatim] at htrue
    cases htrue
  | @commentBlock head c c₁ c' _ _ hbuffered hnewlines hbelow _ ih =>
    intro hline
    have hc₁ := hnewlines.leads h
    have hle : head.line ≤ c₁.line := hline.trans hc₁.le
    refine laid_comment (fun hhidden => ?_) (hle.trans (hbelow.leads hc₁.ordered).le)
      fun b hb => (ih hc₁.ordered b hb).mono_left hle
    rw [hbuffered] at hhidden
    cases hhidden
  | @commentText head c c₁ c' _ t _ hnewlines _ htext _ ih =>
    intro hline
    have hc₁ := hnewlines.leads h
    have hc' := htext.leads hc₁.ordered
    have hle : head.line ≤ c₁.line := hline.trans hc₁.le
    have ht : t.line = c₁.line := ih hc₁.ordered
    refine laid_comment (fun _ b hb => ?_) (hle.trans hc'.le) fun b hb => ?_
    · obtain rfl := Option.some.inj hb
      exact ⟨t, rfl⟩
    · obtain rfl := Option.some.inj hb
      exact laid_textBlock (hle.trans_eq ht.symm) (ht.trans_le hc'.le)
  | commentNone _ hnewlines =>
    intro hline
    exact laid_comment nofun (hline.trans (hnewlines.leads h).le) nofun
  | @block c c₁ children hkind hreads ih =>
    intro b hb
    obtain rfl := Option.some.inj hb
    have hclose := (hreads.leads h.take.ordered).ordered.moves (.close c₁ c.place)
    rw [Block.nodes_places]
    exact ((ih h.take.ordered).mono_left h.take.le).mono_right hclose.le
  | noBlock => exact nofun
  | nil => exact .nil h.seen.le
  | newline _ _ ih => exact (ih h.take.ordered).mono_left h.take.le
  | @cons c c₁ c' first others hfirst hothers ihfirst ihothers =>
    have hseen := (ihfirst h.seen.ordered).mono_left h.seen.le
    show Laid c.line ((first.toList ++ others).flatMap Node.preorder) c'.line
    rw [List.flatMap_append]
    exact hseen.append (ihothers (hfirst.leads h.seen.ordered).ordered)
  | document _ _ ih => exact ih h
  | @outdent c c₁ c' ns others hnodes hkind hothers ihnodes ihothers =>
    have htake := (hnodes.leads h).ordered.take
    show Laid c.line ((ns ++ others).flatMap Node.preorder) c'.line
    rw [List.flatMap_append]
    exact (ihnodes h).append ((ihothers htake.ordered).mono_left htake.le)

/-- The lexemes of a template, from its first line on. -/
theorem ordered_ofSource (layout : Layout) (source : String) :
    (Cursor.ofTape (Scanner.ofSource layout source).tape).Ordered := by
  have hs := Scanner.sound_ofSource layout source
  refine ⟨.cons (fun line hline => ?_) ?_, Scanner.decoded_of_mem_tape hs⟩
  · obtain ⟨l, hl, rfl⟩ := List.mem_map.1 hline
    exact Scanner.line_le_of_mem_tape hs l hl
  · exact List.pairwise_map.2 (Scanner.pairwise_line_tape hs)

/-- Reading refuses with one of the three errors. -/
theorem Cursor.Refuses.intended {c : Cursor} {e : ParseError} (h : c.Refuses e) : Intended e := by
  cases h with
  | scan e => exact .scan e
  | text hgoes hkind => exact .text _ _ hkind
  | attributes hkind => exact .attributes _

end Reading

open Reading

variable {layout : Layout} {source : String} {root : Block}

/-- A template that is not read gives one of the three errors. -/
theorem intended_of_parse {e : ParseError} (h : parse layout source = .error e) : Intended e := by
  rw [parse_eq_read] at h
  obtain ⟨c', -, hrefuses⟩ := stumbles_of_read h
  exact hrefuses.intended

/-- The nodes of a document are laid from the line of its root on. -/
theorem exists_laid_of_parse (h : parse layout source = .ok root) :
    ∃ last, Laid root.line (Place.nodes root.places) last := by
  rw [parse_eq_read] at h
  obtain ⟨c', hline, hreads⟩ := exists_reads h
  rw [hline, Block.nodes_places]
  exact ⟨c'.line, hreads.lays (ordered_ofSource layout source)⟩

/-- Every node of a document that is read from a template is shaped, and in pre-order the
lines of the nodes never decrease. Behind a tag come the code on its line, its text and
the nodes of its block. -/
theorem nodes_shaped_of_parse (h : parse layout source = .ok root) :
    (∀ p ∈ root.places, p.node.Shaped) ∧
      (root.line :: root.places.map (·.node.line)).Pairwise (· ≤ ·) := by
  obtain ⟨last, hlaid⟩ := exists_laid_of_parse h
  refine ⟨fun p hp => hlaid.shaped p.node (List.mem_map_of_mem hp), ?_⟩
  have hpairwise := hlaid.pairwise
  rwa [Place.nodes, List.map_map] at hpairwise

/-- A tag with code on its line, a text below it, a hidden comment, verbatim code and a
filter. -/
theorem nodes_shaped_of_parse_page :
    let source := "p#a.b= x\n  | y\n/ z\n  u\n- v \\\n  w\n:css\n  q"
    ∃ root, parse {} source = .ok root ∧
      root.places.map (·.node.line) = [1, 1, 2, 3, 4, 5, 6, 7, 8] ∧
      (∀ p ∈ root.places, p.node.Shaped) ∧
      (root.line :: root.places.map (·.node.line)).Pairwise (· ≤ ·) := by
  intro source
  have hlines : (parse {} source).map (fun root => root.places.map (·.node.line)) =
      .ok [1, 1, 2, 3, 4, 5, 6, 7, 8] := by decide +kernel
  cases hroot : parse {} source with
  | error e =>
    rw [hroot] at hlines
    cases hlines
  | ok root =>
    rw [hroot] at hlines
    exact ⟨root, rfl, Except.ok.inj hlines, nodes_shaped_of_parse hroot⟩

end Offside
