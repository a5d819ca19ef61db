/-
# What is ahead of a scan

A scan has the bytes of its source ahead of it, from its position up to the bound
(`View.Ahead`).  So what it takes is what stands there (`Ahead.slice`), and the byte that follows
is the next one of the source, also behind the bound (`Ahead.next`).

It stands between the begin of its range and the end, and so do its marks (`Lexer.scan_within`).

Both facts are invariants of the scan, and neither needs to know what was read.  The bytes ahead are
given by a list, from which readers take; that the list is the rest of the source up to the bound is
what ties spans to bytes.  It holds also of a scan that begins in the middle of a source, or behind
its end, where nothing is ahead.
-/
import StyleLex.Proofs.Scan.Layout

namespace StyleLex
namespace Scan

/-! ## 1. What is ahead

`bytes` is the whole source and `limit` where the scan has to stop, so a slice of the source is
compared with a prefix of what is ahead. -/

/-- The bytes up to `limit` are ahead. -/
def View.Ahead (bytes : Array UInt8) (limit : Nat) (view : View) : Prop :=
  view.rest = (bytes.toList.take limit).drop view.position.byte

variable {bytes : Array UInt8} {scope : Scope} {view after : View} {limit : Nat}

/-- A scan moves as far as it takes bytes, or to the bound. -/
theorem View.byte_consume (scope : Scope) (n : Nat) (view : View) :
    (view.consume scope n).position.byte = view.position.byte + min n view.rest.length := by
  show (view.position.advanceOver _ (view.rest.take n)).byte = _
  rw [Position.byte_advanceOver, List.length_take]

namespace View.Ahead

/-- A byte ahead is a byte of the source. -/
theorem getElem? (h : view.Ahead bytes limit) {i : Nat} (hi : i < view.rest.length) :
    view.rest[i]? = bytes[view.position.byte + i]? := by
  rw [View.Ahead] at h
  have hlength : view.rest.length = min limit bytes.toList.length - view.position.byte := by
    rw [h, List.length_drop, List.length_take]
  rw [h, List.getElem?_drop, List.getElem?_take_of_lt (by omega), Array.getElem?_toList]

/-- Taking bytes leaves the others ahead. -/
theorem consume (h : view.Ahead bytes limit) (n : Nat) :
    (view.consume scope n).Ahead bytes limit := by
  show view.rest.drop n = (bytes.toList.take limit).drop (view.consume scope n).position.byte
  rw [View.byte_consume, ← List.drop_drop, ← h]
  rcases Nat.le_total n view.rest.length with hn | hn
  · rw [Nat.min_eq_left hn]
  · rw [Nat.min_eq_right hn, List.drop_eq_nil_of_le hn, List.drop_length]

/-- **Every step goes on in the same bytes.** -/
theorem step (h : view.Ahead bytes limit) (hstep : Step scope view after) :
    after.Ahead bytes limit := by
  cases hstep with
  | @leaf leaf valid branch n =>
    have hmarked : (view.addLeaf leaf valid branch).Ahead bytes limit := h
    exact hmarked.consume n
  | grow => exact h.consume 1
  | @opened branch =>
    have hmarked : (view.openBranch branch).Ahead bytes limit := h
    exact hmarked.consume _
  | @closed branch valid n around further =>
    have hmarked : (view.closeBranch branch valid around further).Ahead bytes limit := h
    exact hmarked.consume n
  | halted => exact h

/-- What is taken stands in the source. -/
theorem prefix_drop (h : view.Ahead bytes limit) (n : Nat) :
    view.rest.take n <+: bytes.toList.drop view.position.byte := by
  refine (List.take_prefix n view.rest).trans ?_
  rw [h, List.drop_take]
  exact List.take_prefix _ _

/-- **What is taken is a slice of the source.** -/
theorem slice (h : view.Ahead bytes limit) (scope : Scope) (n : Nat) :
    Span.slice ⟨view.position, (view.consume scope n).position⟩ bytes = view.rest.take n := by
  obtain ⟨tail, htail⟩ := h.prefix_drop n
  have hlength : (view.consume scope n).position.byte - view.position.byte =
      (view.rest.take n).length := by
    rw [View.byte_consume, List.length_take, Nat.add_sub_cancel_left]
  rw [Span.slice, Array.toList_extract, List.extract_eq_take_drop, hlength, ← htail,
    List.take_left]

/-- **The byte that follows is the next one of the source**: one that the scan will read, or the
one behind its bound. -/
theorem next (h : view.Ahead bytes limit) (hlimit : limit ≤ bytes.size)
    (hbeyond : scope.beyond = bytes[limit]?) {n : Nat} (hne : view.rest.take n ≠ []) :
    (view.rest.drop n).head?.or scope.beyond =
      bytes[view.position.byte + (view.rest.take n).length]? := by
  have hlength : view.rest.length = limit - view.position.byte := by
    rw [h, List.length_drop, List.length_take, Array.length_toList, Nat.min_eq_left hlimit]
  have htaken : (view.rest.take n).length = min n view.rest.length := List.length_take
  have hpositive := List.length_pos_iff.mpr hne
  rcases Nat.lt_or_ge n view.rest.length with hn | hn
  · have hhead : (view.rest.drop n).head? = bytes[view.position.byte + n]? := by
      rw [List.head?_drop, h.getElem? hn]
    have hsome : view.position.byte + n < bytes.size := by omega
    rw [htaken, Nat.min_eq_left (Nat.le_of_lt hn), hhead, Array.getElem?_eq_getElem hsome]
    rfl
  · have hend : view.position.byte + (view.rest.take n).length = limit := by omega
    rw [List.drop_eq_nil_of_le hn, hend, ← hbeyond]
    rfl

end View.Ahead
end Scan

/-- A scan begins with the bytes of its range ahead. -/
theorem Lexer.initial_ahead (branch : Branch) (source : Source) :
    (Lexer.initial branch source).view.Ahead source.bytes source.limit := by
  show source.range = _
  rw [Source.range, Array.toList_extract, List.extract_eq_take_drop, List.drop_take]
  rfl

/-! ## 2. Where a scan stands

The position and the number of bytes ahead have the same sum all the time, which is where the scan
ends. -/

/-- Does a position lie between two offsets? -/
def Position.Within (first last : Nat) (position : Position) : Prop :=
  first ≤ position.byte ∧ position.byte ≤ last

namespace Scan

/-- A scan stands so far before `last` as there are bytes ahead, and its marks are behind it. -/
structure View.Within (first last : Nat) (view : View) : Prop where
  lower : first ≤ view.position.byte
  upper : view.position.byte + view.rest.length = last
  marks : ∀ mark ∈ view.marks, mark.place.Within first last

variable {scope : Scope} {view after : View} {first last : Nat}

/-- The scan itself stands between the two offsets. -/
theorem View.Within.here (h : view.Within first last) : view.position.Within first last :=
  ⟨h.lower, by have := h.upper; omega⟩

/-- Taking bytes moves the scan forward by as many as are there. -/
theorem View.Within.consume (h : view.Within first last) (n : Nat) :
    (view.consume scope n).Within first last := by
  have hlower := h.lower
  have hupper := h.upper
  have hrest : (view.consume scope n).rest.length = view.rest.length - n := List.length_drop
  refine ⟨?_, ?_, h.marks⟩
  · rw [View.byte_consume]
    omega
  · rw [View.byte_consume, hrest]
    omega

/-- A mark stands where the scan does. -/
theorem View.Within.mark (h : view.Within first last) {marked : View} {mark : Mark}
    (hrest : marked.rest = view.rest) (hposition : marked.position = view.position)
    (hmarks : marked.marks = mark :: view.marks) (hplace : mark.place = view.position) :
    marked.Within first last := by
  refine ⟨hposition ▸ h.lower, hposition ▸ hrest ▸ h.upper, ?_⟩
  intro other hother
  rw [hmarks] at hother
  rcases List.mem_cons.mp hother with rfl | hin
  · exact hplace ▸ h.here
  · exact h.marks other hin

/-- **Every step keeps a scan within its range.** -/
theorem View.Within.step (h : view.Within first last) (hstep : Step scope view after) :
    after.Within first last := by
  cases hstep with
  | @leaf leaf valid branch n =>
    have hmarked : (view.addLeaf leaf valid branch).Within first last := h.mark rfl rfl rfl rfl
    exact hmarked.consume n
  | grow => exact h.consume 1
  | @opened branch =>
    have hmarked : (view.openBranch branch).Within first last := h.mark rfl rfl rfl rfl
    exact hmarked.consume _
  | @closed branch valid n around further =>
    have hmarked : (view.closeBranch branch valid around further).Within first last :=
      h.mark rfl rfl rfl rfl
    exact hmarked.consume n
  | halted => exact ⟨h.lower, h.upper, h.marks⟩

end Scan

/-- The offset at which the scan of a source ends if it does not halt: its limit, unless it begins
behind that. -/
def Source.finish (source : Source) : Nat := max source.start.byte source.limit

/-- The range of a source ends where it should. -/
theorem Source.length_range (source : Source) :
    source.start.byte + source.range.length = source.finish := by
  have hlimit : source.limit ≤ source.bytes.size := Nat.min_le_right _ _
  simp only [Source.range, Array.length_toList, Array.size_extract, Source.finish]
  omega

/-- **A scan makes its marks within its range**, and it ends there. -/
theorem Lexer.scan_within (lexer : Lexer) (branch : Branch) (source : Source) :
    (lexer.scan branch source).position.Within source.start.byte source.finish ∧
      ∀ mark ∈ (lexer.scan branch source).marks,
        mark.place.Within source.start.byte source.finish := by
  have hfirst : (Lexer.initial branch source).view.Within source.start.byte source.finish :=
    ⟨Nat.le_refl _, source.length_range, fun mark hmark => by cases hmark⟩
  obtain ⟨-, hdone, -⟩ := Scan.run_induction (Lexer.initial_fresh branch source) hfirst
    fun _ _ _ _ (hstep : Scan.Step (lexer.scope source) _ _) h => h.step hstep
  rw [← Lexer.scan_eq lexer] at hdone
  exact ⟨hdone.here, hdone.marks⟩

end StyleLex
