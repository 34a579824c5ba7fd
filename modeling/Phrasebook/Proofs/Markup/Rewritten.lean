import Phrasebook.Proofs.Markup.Calls
import Phrasebook.Proofs.Markup.Place
import Phrasebook.Proofs.Markup.Written

/-!
# Start tags that are written again

However a start tag stands on its page, with stray quotes, slashes or brackets in its values, its own
markup is one start tag and nothing else. Without the attributes that were left out, that tag is the one
that was read.
-/

namespace Phrasebook.Markup

open Text

/-! ## The start tags of a page -/

theorem TokenStream.legal_of_mem {source : Text} {tag : Tag} {position : Position}
    (h : ⟨.openTag tag, position⟩ ∈ (ofSource source).tokens) : tag.Legal := by
  obtain ⟨raw, text, behind, hspells, -⟩ := (isAt_of_ofSource source).1 _ h
  cases hspells with
  | openTag letter ends => exact Tag.legal_read letter _

namespace Reader

/-- A token that some call answers with is a token of the stream. -/
theorem mem_tokens_of_mem_steps {reader : Reader} {calls : Nat} {token : Placed}
    (h : .ok (some token) ∈ steps calls reader) : token ∈ reader.stream.tokens := by
  rw [steps_eq_map_answer] at h
  obtain ⟨number, -, hanswer⟩ := List.mem_map.mp h
  unfold TokenStream.answer at hanswer
  split at hanswer
  · rename_i hnumber
    cases hanswer
    exact List.mem_of_getElem? hnumber
  · split at hanswer <;> cases hanswer

/-! ## Their markup -/

theorem stream_write {tag : Tag} (h : tag.Legal) (omitted : Text) (position : Position) :
    stream ⟨tag.write omitted, position, none⟩ =
      ⟨[⟨.openTag (tag.without omitted), position⟩], none⟩ := by
  have hread := first_openTag (h.without omitted) []
  rw [Tag.write_eq_inside, ← List.append_nil ((tag.without omitted).inside ++ ['>']),
    stream_of_token (by rw [piece_none, hread]), stream_nil]

/-- The calls for a page of a single token answer with it, and from then on with the end. -/
theorem steps_of_single {reader : Reader} {token : Placed} (h : reader.stream = ⟨[token], none⟩)
    (further : Nat) :
    steps (further + 1) reader = .ok (some token) :: List.replicate further (.ok none) := by
  rw [steps_eq_map_answer, h, List.range_succ_eq_map, List.map_cons, List.map_map]
  congr 1
  exact (List.eq_replicate_iff.mpr ⟨by simp, by simp [TokenStream.answer]⟩)

/-- A start tag that has been read from any page is written as one start tag. The calls for its markup
answer with that tag, which has the same name and flag and, in their order, the attributes that are not
left out, and then with the end. -/
theorem steps_write_of_mem_steps {source : Text} {calls : Nat} {tag : Tag} {position : Position}
    (h : .ok (some ⟨.openTag tag, position⟩) ∈ steps calls (ofSource source)) (omitted : Text)
    (further : Nat) :
    steps (further + 1) (ofSource (tag.write omitted)) =
      .ok (some ⟨.openTag ⟨tag.name, tag.attributes.filter (·.name ≠ omitted), tag.selfClosing⟩,
        .start⟩) :: List.replicate further (.ok none) := by
  have hlegal : tag.Legal := TokenStream.legal_of_mem (mem_tokens_of_mem_steps h)
  exact steps_of_single (stream_write hlegal omitted .start) further

/-- A bracket in quotes, a quote in other quotes, a stray quote pair and a value that ends in a slash. -/
theorem steps_write_stray :
    let tag : Tag := ⟨"a",
      [⟨"title", some "\"a>b\""⟩, ⟨"lang", none⟩, ⟨"x", none⟩, ⟨"href", some "x/"⟩], true⟩
    .ok (some ⟨.openTag tag, ⟨1, 1⟩⟩) ∈
        steps 2 (ofSource "b<A title='\"a>b\"' lang \"x\" href=x/>") ∧
      steps 3 (ofSource (tag.write "lang")) =
        [.ok (some ⟨.openTag ⟨"a",
            [⟨"title", some "\"a>b\""⟩, ⟨"x", none⟩, ⟨"href", some "x/"⟩], true⟩, .start⟩),
          .ok none, .ok none] := by
  intro tag
  have hread : .ok (some ⟨.openTag tag, ⟨1, 1⟩⟩) ∈
      steps 2 (ofSource "b<A title='\"a>b\"' lang \"x\" href=x/>") := by decide +kernel
  exact ⟨hread, steps_write_of_mem_steps hread "lang" 2⟩

end Reader

end Phrasebook.Markup
