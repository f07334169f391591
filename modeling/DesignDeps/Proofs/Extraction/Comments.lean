import DesignDeps.Dependencies
import DesignDeps.Proofs.Skeleton.Comments
import Mathlib

/-!
# Comments and the instances found

Whether another block comment changes the instances that are found depends on what the comments
hold. Where no block comment up to its place holds a quote or two slashes it is as good as none
(`instances_comment`). Two slashes inside of it begin a line comment, which takes the end of the
block comment with it, and then the rest of the line is gone (`instances_slashes_in_comment`).
-/

namespace DesignDeps

open Text Skeleton

namespace Dependencies

/-- A block comment between two blanks that belong to no string and no comment does not change the
instances, as long as it holds neither a quote nor two slashes and the text in front of it is
clear. -/
theorem instances_comment {module : String} {xs : List Lexeme} {rest body : List Char} {b c : Char}
    (hb : isBlank b = true) (hc : isBlank c = true) (h : Reads xs (b :: c :: rest))
    (hclear : Clear xs (b :: c :: rest)) (hclose : ¬['*', '/'] <:+: body) (hquote : '\"' ∉ body)
    (hslashes : ¬['/', '/'] <:+: body) :
    (ofText module (String.ofList (textOf xs ++ b :: (comment body ++ c :: rest)))).instances =
      (ofText module (String.ofList (textOf xs ++ b :: c :: rest))).instances := by
  have hstrip := strip_comment hb hc h hclear hclose hquote hslashes
  simp only [ofText, instancesOf, Skeleton.ofText, String.toList_ofList, hstrip]

def mixedLexemes : List Lexeme :=
  [.lineComment " \"".toList, .char '\n', .quoted "//".toList, .blockComment "ram u();".toList]

example : textOf mixedLexemes = "// \"\n\"//\"/*ram u();*/".toList := by decide +kernel

theorem instances_comment_mixedLexemes :
    Reads mixedLexemes (' ' :: ' ' :: "fifo u();".toList) ∧
      Clear mixedLexemes (' ' :: ' ' :: "fifo u();".toList) ∧
      (ofText "top" (String.ofList (textOf mixedLexemes ++
        ' ' :: (comment "rom u();".toList ++ ' ' :: "fifo u();".toList)))).instances =
      (ofText "top" (String.ofList (textOf mixedLexemes ++
        ' ' :: ' ' :: "fifo u();".toList))).instances := by
  have hreads : Reads mixedLexemes (' ' :: ' ' :: "fifo u();".toList) := by decide +kernel
  have hclear : Clear mixedLexemes (' ' :: ' ' :: "fifo u();".toList) := by decide +kernel
  exact ⟨hreads, hclear, instances_comment (by decide) (by decide) hreads hclear
    (by decide +kernel) (by decide +kernel) (by decide +kernel)⟩

/-- Two slashes take the end of their comment with them, and the instance behind it. -/
theorem instances_slashes_in_comment :
    isBlank ' ' = true ∧ Reads [] (' ' :: ' ' :: "fifo u();\n".toList) ∧
      ¬['*', '/'] <:+: "//".toList ∧
      "fifo" ∈ (ofText "top" (String.ofList (' ' :: ' ' :: "fifo u();\n".toList))).instances ∧
      ¬"fifo" ∈ (ofText "top" (String.ofList
        (' ' :: (comment "//".toList ++ ' ' :: "fifo u();\n".toList)))).instances := by
  have hwithout : instanceUse.findAll (Skeleton.ofText (' ' :: ' ' :: "fifo u();\n".toList)) =
      ["fifo".toList] := by cbv
  have hwith : instanceUse.findAll (Skeleton.ofText
      (' ' :: (comment "//".toList ++ ' ' :: "fifo u();\n".toList))) = [] := by cbv
  have hkeyword : isKeyword "fifo" = false := by decide +kernel
  refine ⟨by decide, trivial, by decide +kernel, ?_, ?_⟩
  · simp only [ofText, instancesOf, String.toList_ofList, hwithout]
    simp [hkeyword]
  · simp only [ofText, instancesOf, String.toList_ofList, hwith]
    simp

end Dependencies

end DesignDeps
