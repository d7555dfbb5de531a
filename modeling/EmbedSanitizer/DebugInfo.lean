import EmbedSanitizer.Packing
import EmbedSanitizer.Strings

namespace EmbedSanitizer
open Strings

-- A std::string, with one character for each byte.
abbrev Text := List Char

structure DebugLoc where
  line : CInt
  filename : Text
  directory : Text
  deriving DecidableEq, Repr

-- abi::__cxa_demangle is not part of this repository: the name it returns, none
-- where its status is not 0.
abbrev Demangler := Text → Option Text

def demangleName (cxaDemangle : Demangler) (name : Text) : Text :=
  match cxaDemangle name with
  | some d => d
  | none => name

def createAbsoluteFileName (dirName fileName : Text) : Text :=
  if dirName.length ≤ 0 ∨ fileName.length ≤ 0 then fileName
  -- has full path already
  else if fileName[0]? = some '/' then fileName
  else if fileName[0]? = some '.' ∧ fileName[1]? = some '/' then
    if dirName[dirName.length-1]? = some '/' then dirName ++ fileName.drop 2
    else dirName ++ fileName.drop 1
  -- file name has full path already
  else if find dirName fileName ≠ none then fileName
  else if dirName[dirName.length-1]? ≠ some '/' then dirName ++ ['/'] ++ fileName
  else dirName ++ fileName

def getFileName (location : Option DebugLoc) : Text :=
  match location with
  | some aScope => createAbsoluteFileName aScope.directory aScope.filename
  | none => "Unknown".toList

-- What both functions below keep of a demangled name.
def nameBeforeParenthesis (name : Text) : Text :=
  match find ['('] name with
  | some idx => name.take idx
  | none => name

def getFuncName (cxaDemangle : Demangler) (F : Text) : Text := nameBeforeParenthesis (demangleName cxaDemangle F)

def getFuncNameStr (cxaDemangle : Demangler) (F : Text) : Text := nameBeforeParenthesis (demangleName cxaDemangle F)

def getLineNumber (location : Option DebugLoc) : CInt :=
  match location with
  | some loc => loc.line
  | none => 0

end EmbedSanitizer
