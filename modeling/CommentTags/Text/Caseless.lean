namespace CommentTags.Text

/-- The lower-case form of a character as far as ASCII keywords can tell. Besides the capital
letters of ASCII only the Kelvin sign U+212A has an ASCII letter as its lower-case form. -/
def caseFold (c : Char) : Char :=
  if c = '\u212a' then 'k' else c.toLower

/-- The key under which a text is looked up in a table of lower-case ASCII keywords. -/
def caselessKey (s : String) : String :=
  String.ofList (s.toList.map caseFold)

example : caselessKey "Hac\u212a!" = "hack!" := by decide

end CommentTags.Text
