/-
# The hashes of a scan

While a hash is open, what it has gathered follows the text of its children so far
(`Gathering`); when it closes, it is classified by that text (`Hash.Classified`).  A turn in a hash
says exactly what becomes of it (`HashStep`); of any other turn it is enough to know that it opens
a hash only where one begins (`readNext_begins`).  Both keep every hash classified
(`readNext_hashing`), and so does the end of the input (`closeAtEnd?_hashing`).

The claim is about the text of the children, because that is what a caller sees: the color of a hash
is valid if the text that follows the sign has the digits of a color, however it was spelled.  While
the hash is open its children are items of the draft already, all but the one that is pending, and
the hash has gathered one character or more for each of them; `Follows` relates the two and leaves
room for what is ahead, since a run of name bytes may be cut inside a character.

Hashes that are complete are kept classified by the draft (`Draft.Hashed`).  A hash that is open
stands innermost, for nothing but leaves is read in it, so there is one at most.
-/
import StyleLex.Proofs.Scan.Adding
import StyleLex.Proofs.Scan.Reading
import StyleLex.Proofs.Token.Digits
import StyleLex.Proofs.Tree.Holding

namespace StyleLex

/-! ## 1. What a hash says

`Begun` is known as soon as the sign is read, by the byte behind it.  `Classified` is what is known
when the hash is complete, field by field as its reader would ask. -/

namespace Hash

/-- The hash stands behind its sign, and it is a name if a name begins there. -/
structure Begun (source : Array UInt8) (place : Nat) (hash : Hash) : Prop where
  sign : source[place]? = some Byte.hash
  isName : hash.isName = true ↔
    ∃ b, source[place + 1]? = some b ∧ (Byte.isNameStart b = true ∨ b = Byte.backslash)

/-- What a complete hash says of the text of its children. -/
structure Classified (source : Array UInt8) (place : Nat) (text : String) (valid : Bool)
    (hash : Hash) : Prop extends hash.Begun source place where
  checked : hash.color ≠ .unchecked
  color : hash.color = .valid ↔ SpellsColor (Utf8.encode text)
  digits : hash.color = .valid → hash.digits.toList = Utf8.encode text
  dropped : hash.color = .invalid → hash.digits = #[]
  valid : valid = true ↔ hash.isName = true ∨ hash.color = .valid

variable {source : Array UInt8} {place : Nat} {hash other : Hash}

/-- Gathering does not change whether the hash is a name. -/
theorem Begun.congr (h : hash.Begun source place) (hname : other.isName = hash.isName) :
    other.Begun source place := ⟨h.sign, hname ▸ h.isName⟩

/-- **A hash that closes is classified by what it has gathered.** -/
theorem Gathers.classified {text : String} (h : hash.Gathers (Utf8.encode text))
    (hbegun : hash.Begun source place) :
    hash.settle.Classified source place text hash.settle.isValid := by
  have hvalid : hash.settle.isValid = true ↔
      hash.settle.isName = true ∨ hash.settle.color = .valid := by
    simp [isValid]
  have hsettled := hbegun.congr (isName_settle hash)
  rcases h.settle with ⟨hcolor, hspells, hdigits⟩ | ⟨hcolor, hspells, hdigits⟩
  · have hnot : hash.settle.color ≠ .invalid := by rw [hcolor]; decide
    exact ⟨hsettled, by rw [hcolor]; decide, ⟨fun _ => hspells, fun _ => hcolor⟩,
      fun _ => hdigits, fun hinvalid => absurd hinvalid hnot, hvalid⟩
  · have hnot : hash.settle.color ≠ .valid := by rw [hcolor]; decide
    exact ⟨hsettled, by rw [hcolor]; decide,
      ⟨fun hcolored => absurd hcolored hnot, fun hcolored => absurd hcolored hspells⟩,
      fun hcolored => absurd hcolored hnot, fun _ => hdigits, hvalid⟩

end Hash

namespace Item

variable {source : Array UInt8} {item : Item}

/-- Every hash in an item is classified by its text. -/
def Hashed (source : Array UInt8) (item : Item) : Prop :=
  ∀ sub ∈ item.subtrees, ∀ hash, sub.label.kind = .branch (.hash hash) →
    hash.Classified source sub.label.span.start.byte (textAll source sub.children)
      sub.label.valid

/-- Completing an item changes nothing inside. -/
theorem Hashed.endAt (h : item.Hashed source) (stop : Position) :
    (Item.endAt stop item).Hashed source := by
  obtain ⟨label, below⟩ := item
  exact Rose.forall_mem_subtrees.mpr (Rose.forall_mem_subtrees.mp h)

/-- A leaf has no hash in it. -/
theorem hashed_leaf {id : NodeId} {leaf : Leaf} {valid : Bool} {span : Span} :
    Hashed source (.node ⟨id, .leaf leaf, valid, span⟩ []) :=
  Rose.forall_mem_subtrees.mpr ⟨nofun, nofun⟩

/-- The text of some items is read from the first one to the last. -/
theorem textAll_concat (source : Array UInt8) (items : List Item) (item : Item) :
    textAll source (items ++ [item]) = textAll source items ++ text source item := by
  induction items with
  | nil => simp [textAll]
  | cons first rest ih => rw [List.cons_append, textAll, ih, textAll, String.append_assoc]

end Item

/-! ## 2. Drafts

Marks put items into other items; a hash is put somewhere when it closes, so this is the one mark
for which something has to be shown. -/

namespace Draft

variable {source : Array UInt8} {draft : Draft}

/-- Every hash that is complete is classified. -/
structure Hashed (source : Array UInt8) (draft : Draft) : Prop where
  done : ∀ frame ∈ draft.frames, ∀ item ∈ frame.done, item.Hashed source
  loose : ∀ item ∈ draft.loose, item.Hashed source

namespace Hashed

/-- Completing the pending child keeps hashes classified. -/
theorem settle (h : draft.Hashed source) (stop : Position) :
    (draft.settle stop).Hashed source := by
  refine ⟨?_, by rw [loose_settle]; exact List.forall_mem_nil _⟩
  rw [frames_settle, List.forall_mem_cons]
  refine ⟨fun item hitem => ?_, fun frame hframe => h.done frame (List.mem_cons_of_mem _ hframe)⟩
  rcases List.mem_append.mp hitem with hitem | hitem
  · exact h.done _ List.mem_cons_self item hitem
  · obtain ⟨last, hlast, rfl⟩ := List.mem_map.mp hitem
    exact (h.loose last hlast).endAt stop

/-- **Every mark keeps hashes classified**, if a hash that it closes is. -/
theorem take (h : draft.Hashed source) (mark : Mark)
    (hclosed : ∀ hash valid stop, mark = .closed (.hash hash) valid stop →
      hash.Classified source draft.frame.origin.span.start.byte
        (Item.textAll source (draft.settle stop).frame.done) valid) :
    (draft.take mark).Hashed source := by
  have hsettled := h.settle mark.place
  cases mark with
  | leaf leaf valid start =>
    refine ⟨hsettled.done, fun item hitem => ?_⟩
    obtain rfl := List.mem_singleton.mp hitem
    exact Item.hashed_leaf
  | opened branch start =>
    exact ⟨List.forall_mem_cons.mpr ⟨List.forall_mem_nil _, hsettled.done⟩, nofun⟩
  | closed branch valid stop =>
    cases houter : draft.outer with
    | nil =>
      rw [Draft.take, closeBranch, outer_settle, houter]
      exact hsettled
    | cons around further =>
      have hframes := List.forall_mem_cons.mp hsettled.done
      rw [take_closed houter]
      refine ⟨by rw [outer_settle, houter] at hframes; exact hframes.2, fun item hitem => ?_⟩
      obtain rfl := List.mem_singleton.mp hitem
      refine Rose.forall_mem_subtrees.mpr ⟨fun hash hkind => ?_, hframes.1⟩
      cases hkind
      have hclassified := hclosed hash valid stop rfl
      rw [← origin_frame_settle stop] at hclassified
      exact hclassified

end Hashed
end Draft

/-! ## 3. Branches that are hashes

Steps are compared by the branch that they are made in: inside a hash by `HashStep`, elsewhere by
`Step`. -/

namespace Branch

/-- Is the branch a hash? -/
def isHash : Branch → Bool
  | .hash _ => true
  | _ => false

variable {branch other : Branch}

/-- A hash is one. -/
theorem exists_of_isHash (h : branch.isHash = true) : ∃ hash, branch = .hash hash := by
  cases branch with
  | hash hash => exact ⟨hash, rfl⟩
  | _ => cases h

/-- A branch that is none is not one. -/
theorem ne_of_isHash (h : branch.isHash = false) (hash : Hash) : branch ≠ .hash hash := by
  rintro rfl
  cases h

/-- Only a hash may gather more. -/
theorem Alike.eq_of_isHash (h : branch.Alike other) (hother : branch.isHash = false) :
    other = branch := by
  cases h with
  | refl => rfl
  | hash before after => cases hother

end Branch

namespace Scan

variable {scope : Scope} {source : Array UInt8} {limit : Nat} {start : Draft} {hash : Hash}
  {state after : State} {view next : View}

/-! ## 4. Where hashes begin

Where a hash begins is known to the reader that opens it, and all other readers open something else.
-/

/-- A hash is opened where one begins. -/
def Begins (rest : List UInt8) (kind : Kind) : Prop :=
  ∀ hash, kind = .branch (.hash hash) → Hash.begin? rest = some hash

/-- A leaf is no hash. -/
theorem begins_leaf {rest : List UInt8} {leaf : Leaf} : Begins rest (.leaf leaf) := nofun

/-- Nor is another branch. -/
theorem begins_other {rest : List UInt8} {branch : Branch} (h : branch.isHash = false) :
    Begins rest (.branch branch) :=
  fun hash heq => absurd (Kind.branch.inj heq) (Branch.ne_of_isHash h hash)

/-- Nor is an interpolation … -/
theorem readQuasiOpening_begins (h : readQuasiOpening scope state = some after) :
    state.view.Adds (Begins state.rest) after.view := by
  obtain ⟨form, -, rfl⟩ := Option.map_eq_some_iff.mp h
  exact openBranch_adds (begins_other rfl)

/-- … or an annotation. -/
theorem readAnnotationOpening_begins (h : readAnnotationOpening scope state = some after) :
    state.view.Adds (Begins state.rest) after.view := by
  obtain ⟨form, -, rfl⟩ := Option.map_eq_some_iff.mp h
  exact openBranch_adds (begins_other rfl)

/-- What closes a hash adds nothing, in whatever branch it is tried. -/
theorem readHashClosing_adds_none {P : Kind → Prop} (h : readHashClosing scope state = some after) :
    state.view.Adds P after.view := by
  cases hhash : state.frame.branch.isHash with
  | true =>
    obtain ⟨hash, hbranch⟩ := Branch.exists_of_isHash hhash
    exact readHashClosing_adds hbranch h
  | false =>
    have hclose : state.closeHash? = state.closeBranch? true := by
      unfold State.closeHash?
      split
      · rename_i hash hbranch
        exact absurd hbranch (Branch.ne_of_isHash hhash hash)
      · rfl
    have hplain : readIdentifierClosing scope state = some after := by
      rw [readHashClosing, hclose] at h
      exact h
    exact readIdentifierClosing_adds hplain

/-- **A turn opens a hash only where one begins.** -/
theorem readNext_begins (scope : Scope) (state : State) :
    state.view.Adds (Begins state.rest) (readNext scope state).view := by
  refine readNext_of_readers (P := fun after => state.view.Adds (Begins state.rest) after.view)
    (adds_of_marks rfl) ?_
  simp only [readers, List.forall_mem_cons]
  exact ⟨fun _ => readBlank_adds begins_leaf, fun _ => readNumeral_adds fun _ => begins_leaf,
    fun _ => readCdx_adds fun _ => begins_leaf, fun _ => readSeparator_adds fun _ => begins_leaf,
    fun _ => readOperator_adds fun _ => begins_leaf, fun _ => readEscape_adds fun _ => begins_leaf,
    fun _ => readContinuation_adds begins_leaf, fun _ => readRaw_adds begins_leaf,
    fun _ => readUnexpected_adds begins_leaf,
    fun _ => readGroupOpening_adds fun _ => begins_other rfl, fun _ => readGroupClosing_adds,
    fun _ => readQuotedOpening_adds fun _ => begins_other rfl, fun _ => readQuotedClosing_adds,
    fun _ => readUrlOpening_adds (begins_other rfl), fun _ => readUrlClosing_adds,
    fun _ => readCommentOpening_adds fun _ => begins_other rfl,
    fun _ => readUrlComment_adds fun _ => begins_other rfl,
    fun _ => readBlockOpening_adds fun _ => begins_other rfl, fun _ => readBlockClosing_adds,
    fun _ => readLineClosing_adds, fun _ => readQuasiOpening_begins,
    fun _ => readAnnotationOpening_begins, fun _ => readFragmentClosing_adds,
    fun _ => readIdentifierOpening_adds (begins_other rfl), fun _ => readIdentifierClosing_adds,
    fun _ => readNameRun_adds begins_leaf,
    fun _ => readHashOpening_adds fun hash hbegin other heq => by cases heq; exact hbegin,
    fun _ => readHashEscape_adds fun _ => begins_leaf, fun _ => readHashRun_adds begins_leaf,
    fun _ => readHashClosing_adds_none, List.forall_mem_nil _⟩

/-! ## 5. What holds between turns

The invariant between turns.  What is ahead is part of it because a hash has gathered bytes, and
characters are known only when they are complete. -/

/-- What an open hash has gathered, with `rest` ahead of it. -/
structure Gathering (source : Array UInt8) (rest : List UInt8) (drafted : Draft.Frame)
    (hash : Hash) : Prop where
  begun : hash.Begun source drafted.origin.span.start.byte
  follows : hash.Follows (Utf8.encode (Item.textAll source drafted.done)) rest

/-- An open hash has gathered what its children say, and what is complete is classified. -/
structure View.Hashing (source : Array UInt8) (limit : Nat) (start : Draft) (view : View) :
    Prop where
  ahead : view.Ahead source limit
  /-- Nothing stands in a hash but leaves. -/
  outer : ∀ frame ∈ view.outer, frame.branch.isHash = false
  inner : ∀ hash, view.frame.branch = .hash hash →
    Gathering source view.rest ((view.draft start).settle view.position).frame hash
  drafted : (view.draft start).Hashed source

namespace View.Hashing

/-- A leaf in a hash adds its text to what the hash has gathered. -/
theorem hashLeaf (h : view.Hashing source limit start) (hbranch : view.frame.branch = .hash hash)
    (leaf : Leaf) (valid : Bool) {after : Hash} {n : Nat} (hname : after.isName = hash.isName)
    (hgathers : ∀ text, hash.Follows (Utf8.encode text) view.rest →
      after.Gathers (Utf8.encode (text ++ Item.text source
        (.node ⟨((view.draft start).settle view.position).next, .leaf leaf, valid,
          ⟨view.position, (view.consume scope n).position⟩⟩ [])))) :
    ((view.addLeaf leaf valid (.hash after)).consume scope n).Hashing source limit start := by
  have hmarked : (view.addLeaf leaf valid (.hash after)).Ahead source limit := h.ahead
  have hinner := h.inner hash hbranch
  refine ⟨hmarked.consume n, h.outer, ?_, ?_⟩
  · rintro other heq
    cases heq
    rw [draft_consume, draft_addLeaf]
    refine ⟨?_, Or.inl ?_⟩
    · rw [Draft.origin_frame_settle]
      exact hinner.begun.congr hname
    · have hdone := hgathers _ hinner.follows
      rw [← Item.textAll_concat] at hdone
      exact hdone
  · rw [draft_consume, draft_addLeaf]
    exact h.drafted.take _ nofun

/-- **Every turn in a hash keeps hashes classified.** -/
theorem hashStep (h : view.Hashing source limit start) (hbranch : view.frame.branch = .hash hash)
    (hstep : HashStep scope hash view next) : next.Hashing source limit start := by
  cases hstep with
  | @escape reading read =>
    refine h.hashLeaf hbranch _ _ (Hash.isName_escaped reading hash) fun text hfollows => ?_
    rw [Utf8.encode_append]
    exact hfollows.escaped read
  | run ahead =>
    refine h.hashLeaf hbranch _ _ (Hash.isName_foldl _ hash) fun text hfollows => ?_
    have hslice := h.ahead.slice scope (view.rest.takeWhile Byte.isName).length
    rw [← List.prefix_iff_eq_take.mp (List.takeWhile_prefix _)] at hslice
    rw [Utf8.encode_append, show Item.text source _ = Span.read _ source from rfl, Span.read,
      hslice]
    exact hfollows.run ahead
  | @closed around further outer complete =>
    have hinner := h.inner hash hbranch
    have haround := h.outer around (by rw [outer]; exact List.mem_cons_self)
    refine ⟨h.ahead, fun frame hframe => h.outer frame ?_,
      fun other heq => absurd heq (Branch.ne_of_isHash haround other), ?_⟩
    · rw [outer]
      exact List.mem_cons_of_mem _ hframe
    · rw [draft_closeBranch]
      refine h.drafted.take _ fun other valid stop heq => ?_
      cases heq
      rw [← Draft.origin_frame_settle view.position]
      exact (hinner.follows.gathers complete).classified hinner.begun
  | halted outer => exact ⟨h.ahead, h.outer, h.inner, h.drafted⟩

/-- **Every other step does.** -/
theorem step (h : view.Hashing source limit start)
    (hother : view.frame.branch.isHash = false)
    (hbegins : view.Adds (Begins view.rest) next) (hstep : Step scope view next) :
    next.Hashing source limit start := by
  have hahead := h.ahead.step hstep
  have hnone := Branch.ne_of_isHash hother
  cases hstep with
  | @leaf leaf valid branch n ahead positive alike sound =>
    obtain rfl := alike.eq_of_isHash hother
    refine ⟨hahead, h.outer, fun hash heq => absurd heq (hnone hash), ?_⟩
    rw [draft_consume, draft_addLeaf]
    exact h.drafted.take _ nofun
  | grow => exact ⟨hahead, h.outer, fun hash heq => absurd heq (hnone hash), h.drafted⟩
  | @opened branch ahead proper fits inside begins =>
    refine ⟨hahead, List.forall_mem_cons.mpr ⟨hother, h.outer⟩, fun hash heq => ?_, ?_⟩
    · obtain rfl : branch = .hash hash := heq
      obtain ⟨b, tail, hrest, hname, hfollows⟩ :=
        Hash.begin?_eq_some (hbegins _ _ rfl rfl hash rfl)
      have hsign := h.ahead.getElem? (show 0 < view.rest.length by rw [hrest]; simp)
      have hnext := h.ahead.getElem? (show 1 < view.rest.length by rw [hrest]; simp)
      rw [hrest] at hsign hnext
      rw [draft_consume, draft_openBranch]
      refine ⟨⟨hsign.symm, ?_⟩, ?_⟩
      · show _ ↔ ∃ b, source[view.position.byte + 1]? = some b ∧ _
        rw [hname, ← hnext]
        simp
      · show hash.Follows [] (view.rest.drop 1)
        rw [hrest]
        exact hfollows
    · rw [draft_consume, draft_openBranch]
      exact h.drafted.take _ nofun
  | @closed branch valid n around further outer alike ends complete =>
    obtain rfl := alike.eq_of_isHash hother
    have haround := h.outer around (by rw [outer]; exact List.mem_cons_self)
    refine ⟨hahead, fun frame hframe => h.outer frame ?_,
      fun hash heq => absurd heq (Branch.ne_of_isHash haround hash), ?_⟩
    · rw [outer]
      exact List.mem_cons_of_mem _ hframe
    · rw [draft_consume, draft_closeBranch]
      refine h.drafted.take _ fun hash valid stop heq => ?_
      injection heq with hhash
      exact absurd hhash (hnone hash)
  | halted => exact ⟨hahead, h.outer, h.inner, h.drafted⟩

end View.Hashing

/-! ## 6. The scan

The scan of a whole source begins in its root, with no hash open and none complete. -/

/-- **Every turn keeps hashes classified.** -/
theorem readNext_hashing (scope : Scope) (ahead : state.rest ≠ [])
    (h : state.view.Hashing source limit start) :
    (readNext scope state).view.Hashing source limit start := by
  cases hhash : state.frame.branch.isHash with
  | true =>
    obtain ⟨hash, hbranch⟩ := Branch.exists_of_isHash hhash
    exact h.hashStep hbranch (readNext_hash scope hbranch)
  | false => exact h.step hhash (readNext_begins scope state) (readNext_step scope ahead)

/-- **So does the end of the input.** -/
theorem closeAtEnd?_hashing (scope : Scope) {closed : State} (hrest : state.rest = [])
    (hclosed : state.closeAtEnd? = some closed) (h : state.view.Hashing source limit start) :
    closed.view.Hashing source limit start := by
  have hstep := closeAtEnd?_step scope hrest hclosed
  cases hhash : state.frame.branch.isHash with
  | true =>
    obtain ⟨hash, hbranch⟩ := Branch.exists_of_isHash hhash
    rw [State.closeAtEnd?, hbranch] at hclosed
    rcases closeHash?_eq hbranch with
      ⟨hnone, -⟩ | ⟨found, around, further, hsome, houter, hview⟩
    · rw [show state.closeHash? = some closed from hclosed] at hnone
      cases hnone
    · obtain rfl := Option.some.inj (hsome.symm.trans hclosed)
      rw [hview]
      have hdone : ¬ NameAhead state.view.rest := by
        rw [show state.view.rest = [] from hrest]
        exact not_nameAhead_nil
      have hturn : HashStep scope hash state.view _ := .closed houter hdone
      exact h.hashStep hbranch hturn
  | false => exact h.step hhash (hstep.adds_of_nil hrest) hstep

end Scan

/-- **What a scan of a source has read is classified.** -/
theorem Lexer.draft_hashed (lexer : Lexer) (source : Source) {start : Draft}
    (houter : start.outer = []) (hpending : start.pending = none) (hdone : start.frame.done = []) :
    ∀ item ∈ (lexer.draft start .root source).frame.done, item.Hashed source.bytes := by
  have hdraft : (initial .root source).view.draft start = start := rfl
  have hstart : (initial .root source).view.Hashing source.bytes source.limit start := by
    refine ⟨initial_ahead .root source, List.forall_mem_nil _, nofun, ?_, ?_⟩
    · rw [hdraft, Draft.frames, houter, List.forall_mem_singleton, hdone]
      exact List.forall_mem_nil _
    · rw [hdraft, Draft.loose_of_none hpending]
      exact List.forall_mem_nil _
  obtain ⟨-, hhashing, -⟩ := Scan.run_states
    (P := fun state => state.view.Hashing source.bytes source.limit start)
    (initial_fresh .root source) hstart
    (fun _ _ ahead _ h => Scan.readNext_hashing (lexer.scope source) ahead h)
    fun _ _ _ hrest hclosed h => Scan.closeAtEnd?_hashing (lexer.scope source) hrest hclosed h
  exact (hhashing.drafted.settle _).done _ List.mem_cons_self

end StyleLex
