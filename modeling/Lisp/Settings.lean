/-!
# Settings of the interactive loop

The prompt and the file that keeps the history of lines. The file lies in the user's data
directory unless a variable names another one.
-/

namespace Lisp

/-- The settings of the interactive loop. -/
structure Settings where
  prompt : String
  /-- The file with the history, if there is to be one. -/
  history : Option String
  deriving DecidableEq

namespace Settings

/-- A path below a directory. -/
def below (directory name : String) : String :=
  if directory = "" then name
  else if directory.toList.getLast? = some '/' then directory ++ name
  else directory ++ "/" ++ name

/-- The settings of a user with this data directory, where a system has one. -/
def within (dataDirectory : Option String) : Settings where
  prompt := "user> "
  history := dataDirectory.map fun d => below (below d "tramp") "history.txt"

/-- The settings with another file for the history, if one is named. -/
def withHistory (settings : Settings) (named : Option String) : Settings :=
  { settings with history := named <|> settings.history }

end Settings

end Lisp
