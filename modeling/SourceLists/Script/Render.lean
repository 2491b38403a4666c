import SourceLists.Script.Statement
import SourceLists.Grammar.Token

/-! Statements written out on one line. Which flags and scopes they had is not known, so that the
items of `target_sources` are all private. -/

namespace SourceLists

def Item.Content.render : Item.Content → Text
  | literal text => text
  | reference name => Grammar.Token.referenceText name

def Item.render (item : Item) : Text := item.content.render

def renderItems (items : List Item) : Text := List.intercalate [' '] (items.map Item.render)

def Statement.render (st : Statement) : Text :=
  let scope := match st.kind with
    | .targetSources => " PRIVATE".toList
    | .set | .addLibrary | .addExecutable => []
  st.kind.command.toList ++ ['('] ++ st.name ++ scope ++ [' '] ++ renderItems st.items ++ [')']

end SourceLists
