import Upkeep.Rule.Basic

/-!
# The stock rule sets

Two jobs come with the library. The generator job collapses the block
that splits a table comment into `commentLines` and hands the list to the
context; the template job replaces the loop over that list by one line.
-/

namespace Upkeep.Stock

/-! ## Generators -/

/-- The comment that opens a block in a generator source. -/
def generatorMarker : Text := "// 准备注释行".toList

def generatorReplacement : Text :=
  "resultContext.putContext(tag, \"Comment\", SqlSchemaUtils.getComment(table))".toList

/-- The most line breaks between the declaration of `commentLines` and
the `with(context)` block. -/
def generatorBlockLines : Nat := 24

def generatorBlock : List Piece :=
  [.literal generatorMarker,
   .lineBreak,
   .keyword "val".toList,
   .someSpace,
   .keyword "commentLines".toList,
   .space,
   .literal "=".toList,
   .space,
   .literal "SqlSchemaUtils.getComment(table)".toList,
   .gapWithin generatorBlockLines,
   .literal "with(context)".toList,
   .space,
   .literal "\x7b".toList,
   .lineBreak,
   .literal "resultContext.putContext(tag,".toList,
   .space,
   .literal "\"commentLines\",".toList,
   .space,
   .literal "commentLines)".toList,
   .lineBreak,
   .literal "\x7d".toList]

def generatorRules : Except PatternError RuleSet := do
  RuleSet.ofRules
    [← Rule.compile "generator-comment-lines" generatorBlock generatorReplacement]

/-! ## Templates -/

def templateReplacement : Text := " * \x7b\x7b Comment \x7d\x7d".toList

/-- A trim marker, where tags may carry one. -/
def trimMark (trimmed : Bool) : List Piece :=
  if trimmed then [.optional "-".toList] else []

def tagOpen (trimmed : Bool) : List Piece := .literal "\x7b%".toList :: trimMark trimmed

/-- The closing of a tag, with the blanks before it. -/
def tagClose (trimmed : Bool) : List Piece :=
  .space :: (trimMark trimmed ++ [.literal "%\x7d".toList])

/-- The loop over the comment lines in a template; `trimmed` tells
whether its tags may carry trim markers. -/
def commentLoop (trimmed : Bool) : List Piece :=
  tagOpen trimmed
    ++ [.space,
        .keyword "for".toList,
        .someSpace,
        .keyword "line".toList,
        .someSpace,
        .keyword "in".toList,
        .someSpace,
        .keyword "commentLines".toList]
    ++ tagClose trimmed
    ++ [.lineBreak,
        .literal "*".toList,
        .space,
        .literal "\x7b\x7b".toList,
        .space,
        .keyword "line".toList,
        .space,
        .literal "\x7d\x7d".toList,
        .lineBreak]
    ++ tagOpen trimmed
    ++ [.space, .keyword "endfor".toList]
    ++ tagClose trimmed

/-- The rules for templates: loops whose tags may carry trim markers, then
loops whose tags carry none. -/
def templateRules : Except PatternError RuleSet := do
  RuleSet.ofRules
    [← Rule.compile "template-comment-loop-trimmed" (commentLoop true) templateReplacement,
     ← Rule.compile "template-comment-loop-plain" (commentLoop false) templateReplacement]

end Upkeep.Stock
