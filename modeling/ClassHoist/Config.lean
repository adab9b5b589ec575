import ClassHoist.Json.Token
import ClassHoist.Options

/-! # Configuration

A configuration is written in JSON: an object with a member for each setting that differs from its
default, or an array with the values of the settings in order, of which the last ones may be left
out. Nothing else is allowed, and of several problems the first one in the text is reported.
-/

namespace ClassHoist

open Json (Problem Token)

/-- What a configuration settles: whether classes for one direction and marked classes are
supported, the endings of the names of component files, and patterns of files that are left out.
Without endings the usual one counts. -/
structure Config where
  rtl : Bool
  globalPrefix : Bool
  extensions : List Text
  ignore : List Text
  deriving DecidableEq, Repr

namespace Config

/-- Nothing is switched on. -/
def default : Config := ⟨false, false, [], []⟩

instance : Inhabited Config := ⟨default⟩

/-- The endings of the names of component files. -/
def fileExtensions (config : Config) : List Text :=
  if config.extensions.isEmpty then [".svelte".toList] else config.extensions

/-- What can be settled in a configuration. -/
inductive Setting where
  | rtl
  | globalPrefix
  | extensions
  | ignore
  deriving DecidableEq, Repr

/-- The settings, in the order in which an array gives them. -/
def Setting.all : List Setting := [.rtl, .globalPrefix, .extensions, .ignore]

/-- The key of a setting in an object. -/
def Setting.key : Setting → Text
  | .rtl => "rtl".toList
  | .globalPrefix => "globalPrefix".toList
  | .extensions => "extensions".toList
  | .ignore => "ignore".toList

/-- What is wrong with a token where a value of another kind is expected. -/
def valueProblem : Token → Problem
  | .brokenString problem => problem
  | .broken problem => problem
  | .arrayEnd | .objectEnd | .comma | .colon => .malformed
  | _ => .unsuitable

/-- The texts of an array after one of them, and what follows the array. -/
def textsAfter : List Token → Except Problem (List Text × List Token)
  | [] => .error .ended
  | .arrayEnd :: rest => .ok ([], rest)
  | [.comma] => .error .ended
  | .comma :: .arrayEnd :: _ => .error .malformed
  | .comma :: .string value :: rest =>
    (textsAfter rest).map fun (more, after) => (value :: more, after)
  | .comma :: other :: _ => .error (valueProblem other)
  | _ => .error .malformed

/-- An array of texts, and what follows it. -/
def texts : List Token → Except Problem (List Text × List Token)
  | [] => .error .ended
  | [.arrayStart] => .error .ended
  | .arrayStart :: .arrayEnd :: rest => .ok ([], rest)
  | .arrayStart :: .string value :: rest =>
    (textsAfter rest).map fun (more, after) => (value :: more, after)
  | .arrayStart :: other :: _ => .error (valueProblem other)
  | other :: _ => .error (valueProblem other)

/-- A truth value, and what follows it. -/
def truth : List Token → Except Problem (Bool × List Token)
  | [] => .error .ended
  | .bool value :: rest => .ok (value, rest)
  | other :: _ => .error (valueProblem other)

/-- The configuration with the value of a setting, and what follows the value. -/
def assign (config : Config) (setting : Setting) (tokens : List Token) :
    Except Problem (Config × List Token) :=
  match setting with
  | .rtl => (truth tokens).map fun (value, rest) => ({ config with rtl := value }, rest)
  | .globalPrefix =>
    (truth tokens).map fun (value, rest) => ({ config with globalPrefix := value }, rest)
  | .extensions =>
    (texts tokens).map fun (values, rest) => ({ config with extensions := values }, rest)
  | .ignore => (texts tokens).map fun (values, rest) => ({ config with ignore := values }, rest)

/-- The values of the remaining settings, after the value of one, and what follows the array. -/
def elementsAfter (config : Config) :
    (remaining : List Setting) → List Token → Except Problem (Config × List Token)
  | _, [] => .error .ended
  | _, .arrayEnd :: rest => .ok (config, rest)
  | [], _ => .error .malformed
  | _ :: _, [.comma] => .error .ended
  | _ :: _, .comma :: .arrayEnd :: _ => .error .malformed
  | setting :: remaining, .comma :: rest =>
    match config.assign setting rest with
    | .error problem => .error problem
    | .ok (config, rest) => elementsAfter config remaining rest
  | _ :: _, _ => .error .malformed

/-- The values of the settings after the opening bracket, and what follows the array. -/
def elements : (settings : List Setting) → List Token → Except Problem (Config × List Token)
  | _, [] => .error .ended
  | _, .arrayEnd :: rest => .ok (default, rest)
  | [], _ => .error .malformed
  | setting :: remaining, tokens =>
    match default.assign setting tokens with
    | .error problem => .error problem
    | .ok (config, rest) => elementsAfter config remaining rest

/-- The members of an object, from a key on, and what follows the object. Each setting can be given
once. -/
def members (config : Config) (remaining : List Setting) :
    List Token → Except Problem (Config × List Token)
  | [] => .error .ended
  | .string key :: tokens =>
    match found : remaining.find? (·.key == key) with
    | none => .error .unsuitable
    | some setting =>
      have : (remaining.erase setting).length < remaining.length := by
        have member := List.mem_of_find?_eq_some found
        have := List.length_pos_of_mem member
        rw [List.length_erase_of_mem member]
        omega
      match tokens with
      | [] => .error .ended
      | .colon :: tokens =>
        match config.assign setting tokens with
        | .error problem => .error problem
        | .ok (_, []) => .error .ended
        | .ok (config, .objectEnd :: rest) => .ok (config, rest)
        | .ok (config, .comma :: rest) => members config (remaining.erase setting) rest
        | .ok _ => .error .malformed
      | _ => .error .malformed
  | .brokenString problem :: _ => .error problem
  | _ => .error .malformed
termination_by remaining.length

/-- The configuration, and what follows it. -/
def value : List Token → Except Problem (Config × List Token)
  | [] => .error .ended
  | .arrayStart :: rest => elements Setting.all rest
  | .objectStart :: .objectEnd :: rest => .ok (default, rest)
  | .objectStart :: rest => members default Setting.all rest
  | other :: _ => .error (valueProblem other)

/-- The configuration that a text consists of. -/
def ofText? (text : Text) : Except Problem Config :=
  match value (Json.tokens text) with
  | .error problem => .error problem
  | .ok (config, []) => .ok config
  | .ok _ => .error .malformed

end Config

end ClassHoist
