import Phrasebook.Text.Search

/-!
# Styles

A style is a terminal's code for the look of a text. A text that already contains the code for the
end of a style takes the style up again behind it.
-/

namespace Phrasebook.Report

/-- The parameters of a style, in the order in which they are written. -/
structure Style where
  codes : Text
  deriving DecidableEq, Repr

namespace Style

def kind : Style := ⟨"1;32"⟩

def error : Style := ⟨"1;31"⟩

def remark : Style := ⟨"2;36"⟩

def arrow : Style := ⟨"34"⟩

def label : Style := ⟨"1"⟩

def success : Style := ⟨"32"⟩

def failure : Style := ⟨"31"⟩

/-- The code that starts the style. -/
def start (style : Style) : Text := "\x1b[" ++ style.codes ++ "m"

/-- The code that ends any style. -/
def reset : Text := "\x1b[0m"

/-- The text with `style` taken up again behind each code that ends one. -/
def renew (style : Style) : Text → Text
  | [] => []
  | c :: rest =>
    if Text.begins reset (c :: rest) then
      reset ++ style.start ++ renew style (rest.drop (reset.length - 1))
    else c :: renew style rest
  termination_by text => text.length
  decreasing_by all_goals simp only [List.length_drop, List.length_cons]; omega

/-- The text in the style, if there are colors. -/
def paint (style : Style) (colored : Bool) (text : Text) : Text :=
  if colored then style.start ++ style.renew text ++ reset else text

end Style

end Phrasebook.Report
