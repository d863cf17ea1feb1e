/-!
Texts for a host. A host reads a text up to its first zero, so one with a zero
inside cannot be handed over.
-/

namespace IqBalance.Text

/-- No character of a text is zero. -/
def ZeroFree (text : String) : Prop := '\x00' ∉ text.toList

instance : DecidablePred ZeroFree :=
  fun text => inferInstanceAs (Decidable ('\x00' ∉ text.toList))

/-- A text as a host gets it, if it can. -/
def handedOver (text : String) : Option String := if ZeroFree text then some text else none

end IqBalance.Text
