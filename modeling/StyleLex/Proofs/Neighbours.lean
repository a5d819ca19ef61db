/-
# Runs are maximal

A run takes all that belongs to it, so no two runs of one kind stand side by side below a branch.
Blanks and the text of names are taken at once, up to a byte that does not belong to them; raw and
unexpected bytes are taken one by one, and join the leaf before them (`Kind.Parted`).  A name ends
only where no name goes on, so no identifier begins right behind it.

For the two ways in which runs are taken there are two reasons.  A run that is taken at once ends
because the next byte is of another class, so a run that follows would have to begin with a byte of
its own class and not of it.  A run that is taken byte by byte goes on as long as the leaf before it
is of the same kind, so no second leaf of this kind is begun.  A name is neither: it is a branch,
and closes where nothing of a name is ahead.
-/
import StyleLex.Proofs.Children
import StyleLex.Proofs.Scan.Runs

namespace StyleLex

/-! ## 1. Kinds that go on

A relation between the kinds of two neighbours, which can be decided without the source. -/

/-- Would a node of the second kind, right behind one of the first, have been a part of it? -/
def Kind.runsOn : Kind → Kind → Bool
  | .leaf .blank, .leaf .blank => true
  | .leaf .raw, .leaf .raw => true
  | .leaf .unexpected, .leaf .unexpected => true
  | .branch (.identifier _), .branch (.identifier _) => true
  | .branch (.hash _), .branch (.identifier _) => true
  | _, _ => false

/-- It does not depend on values. -/
theorem Kind.runsOn_valued (value more : String) (before behind : Kind) :
    (before.valued value).runsOn (behind.valued more) = before.runsOn behind := by
  cases before with
  | leaf leaf => cases behind <;> cases leaf <;> rfl
  | branch branch =>
    cases behind with
    | leaf leaf => cases branch <;> rfl
    | branch inner => cases branch <;> cases inner <;> rfl

/-! ## 2. Items side by side

One lemma for each of the kinds that could go on, and then all of them together. -/

namespace Item

variable {dialect : Dialect} {input : List UInt8} {around : Branch} {before behind item : Item}

/-- Items that follow each other have nothing between them. -/
theorem Abut.isChain {a b : Nat} {items : List Item} (h : Abut a items b) :
    items.IsChain fun before behind =>
      before.label.span.stop.byte = behind.label.span.start.byte := by
  refine List.isChain_iff_forall_rel_of_append_cons_cons.mpr fun before behind front back heq => ?_
  rw [heq, List.append_cons] at h
  exact (abut_split h.front).2

/-- A run of bytes of one class that are taken at once. -/
def IsWhole (input : List UInt8) (p : UInt8 → Bool) (item : Item) : Prop :=
  item.label.span.stop.byte = item.label.span.start.byte +
    ((input.drop item.label.span.start.byte).takeWhile p).length

/-- **Two such runs do not follow each other**, for the first one ends where the class does. -/
theorem IsWhole.apart {p : UInt8 → Bool} (hbefore : IsWhole input p before)
    (hbehind : IsWhole input p behind)
    (hnext : before.label.span.stop.byte = behind.label.span.start.byte)
    (hproper : behind.label.span.start.byte < behind.label.span.stop.byte) : False := by
  have hnone := Scan.takeWhile_behind_run p (input.drop before.label.span.start.byte)
  rw [List.drop_drop, ← hbefore, hnext] at hnone
  rw [IsWhole, hnone, List.length_nil] at hbehind
  omega

/-- Blanks are taken at once. -/
theorem Known.isWhole_blank (h : Known dialect input around item)
    (hblank : item.label.kind = .leaf .blank) : IsWhole input Byte.isBlank item := by
  obtain ⟨n, htakes, hstop⟩ := h.spoken.leaf .blank hblank
  cases htakes with
  | blank =>
    have hle := (List.takeWhile_prefix Byte.isBlank
      (l := input.drop item.label.span.start.byte)).length_le
    have hproper := h.sits.proper
    have hinside := h.sits.inside
    rw [List.length_drop] at hle
    exact hstop.trans (Nat.min_eq_left (by omega))

/-- No identifier begins where a name has ended. -/
theorem Known.not_identifier (hbefore : Known dialect input around before)
    (hbehind : Known dialect input around behind)
    (hnext : before.label.span.stop.byte = behind.label.span.start.byte) {name : Branch}
    (hkind : before.label.kind = .branch name) (hname : name.isName = true) (value : String) :
    behind.label.kind ≠ .branch (.identifier value) := by
  intro hidentifier
  refine (hbefore.spoken.name name hkind hname).1 ?_
  rw [hnext]
  exact Scan.nameAhead_of_beginsIdentifier (hbehind.begun _ hidentifier)

/-- Raw text does not follow raw text. -/
theorem Known.not_raw (hbefore : Known dialect input around before)
    (hbehind : Known dialect input around behind)
    (hnext : before.label.span.stop.byte = behind.label.span.start.byte)
    (hparted : around.isNarrow = false → before.label.kind.grows = true →
      behind.label.kind ≠ before.label.kind)
    (hraw : before.label.kind = .leaf .raw) : behind.label.kind ≠ .leaf .raw := by
  intro hagain
  cases hnarrow : around.isNarrow with
  | false => exact hparted hnarrow (by rw [hraw]; rfl) (hagain.trans hraw.symm)
  | true =>
    have hname : around.isName = true := by
      rcases Bool.or_eq_true_iff.mp hnarrow with hname | hfragment
      · exact hname
      · -- a fragment holds no raw text
        have hheld := hbefore.held
        rw [Branch.holds_of_isFragment hfragment, hraw] at hheld
        cases hheld
    exact IsWhole.apart (hbefore.run hname hraw) (hbehind.run hname hagain) hnext
      hbehind.sits.proper

/-- Nor do unexpected bytes follow unexpected ones. -/
theorem Known.not_unexpected (hbefore : Known dialect input around before)
    (hparted : around.isNarrow = false → before.label.kind.grows = true →
      behind.label.kind ≠ before.label.kind)
    (hodd : before.label.kind = .leaf .unexpected) : behind.label.kind ≠ .leaf .unexpected := by
  intro hagain
  have hwide : around.isNarrow = false := by
    rcases Branch.isOuter_of_holds (hodd ▸ hbefore.held) with rfl | ⟨bracket, rfl⟩ <;> rfl
  exact hparted hwide (by rw [hodd]; rfl) (hagain.trans hodd.symm)

/-- **What stands behind an item in a branch is no part of it.** -/
theorem Known.not_runsOn (hbefore : Known dialect input around before)
    (hbehind : Known dialect input around behind)
    (hnext : before.label.span.stop.byte = behind.label.span.start.byte)
    (hparted : around.isNarrow = false → before.label.kind.grows = true →
      behind.label.kind ≠ before.label.kind) :
    before.label.kind.runsOn behind.label.kind = false := by
  unfold Kind.runsOn
  split
  · rename_i hfirst hsecond
    exact (IsWhole.apart (hbefore.isWhole_blank hfirst) (hbehind.isWhole_blank hsecond) hnext
      hbehind.sits.proper).elim
  · rename_i hfirst hsecond
    exact absurd hsecond (hbefore.not_raw hbehind hnext hparted hfirst)
  · rename_i hfirst hsecond
    exact absurd hsecond (hbefore.not_unexpected hparted hfirst)
  · rename_i hfirst hsecond
    exact absurd hsecond (hbefore.not_identifier hbehind hnext hfirst rfl _)
  · rename_i hfirst hsecond
    exact absurd hsecond (hbefore.not_identifier hbehind hnext hfirst rfl _)
  · rfl

/-- So it is all along a branch. -/
theorem KnownAll.isChain {items : List Item} {a b : Nat} (h : KnownAll dialect input around items)
    (habut : Abut a items b) :
    items.IsChain fun before behind => before.label.kind.runsOn behind.label.kind = false := by
  refine List.isChain_iff_forall_rel_of_append_cons_cons.mpr fun before behind front back heq => ?_
  have hnext := (List.isChain_append_cons_cons.mp (heq ▸ habut.isChain)).2.1
  refine (h.each before (by simp [heq])).not_runsOn (h.each behind (by simp [heq])) hnext
    fun hwide => ?_
  have hparted := (List.isChain_map _).mp (h.parted hwide)
  exact (List.isChain_append_cons_cons.mp (heq ▸ hparted)).2.1

end Item

/-! ## 3. The tree of a source

The children of a branch are neighbours in the order in which they stand. -/

/-- No two children of a branch that follow each other would have been one. -/
def Tree.RunsWhole (tree : Tree) : Prop :=
  ∀ id node branch, tree.node? id = some node → node.kind = .branch branch →
    ∃ kinds : List Kind, node.children.toList.map tree.kind? = kinds.map some ∧
      kinds.IsChain fun before behind => before.runsOn behind = false

namespace Lexer

/-- **Runs are maximal.**  Nothing that follows a run in its branch would have belonged to it, and
no identifier follows an identifier or a hash. -/
theorem tokenizeBytes_runsWhole {dialect : Dialect} {lexer : Lexer}
    (hlexer : Lexer.ofDialect dialect = .ok lexer) (bytes : Array UInt8) :
    (lexer.tokenizeBytes bytes).tree.RunsWhole := by
  intro id node branch hnode hkind
  obtain ⟨around, value, below, -, hchildren, habut, hheld, hknown⟩ :=
    lexer.exists_children (ofDialect_made hlexer) hnode hkind
  refine ⟨below.map (Item.kind bytes), Tree.map_kind?_children hchildren hheld, ?_⟩
  refine List.isChain_map_of_isChain _ (fun before behind h => ?_) (hknown.isChain habut)
  rw [Item.kind_eq_valued, Item.kind_eq_valued, Kind.runsOn_valued]
  exact h

/-- Two unexpected bytes, blanks, and two strays in a group: `\x01\x02 \t(\x7F])`. -/
theorem stray_runs_whole :
    ∃ lexer, Lexer.ofDialect Dialect.standard = .ok lexer ∧
      (lexer.tokenizeBytes #[0x01, 0x02, 0x20, 0x09, 0x28, 0x7F, 0x5D, 0x29]).tree.RunsWhole ∧
      (lexer.tokenizeBytes #[0x01, 0x02, 0x20, 0x09, 0x28, 0x7F, 0x5D, 0x29]).tree.children 0 =
        #[1, 2, 3] ∧
      (lexer.tokenizeBytes #[0x01, 0x02, 0x20, 0x09, 0x28, 0x7F, 0x5D, 0x29]).tree.children 3 =
        #[4] := by
  refine ⟨_, rfl, tokenizeBytes_runsWhole (show Lexer.ofDialect Dialect.standard = _ from rfl) _,
    ?_, ?_⟩ <;> decide +kernel

end Lexer
end StyleLex
