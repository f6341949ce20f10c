import Routing.Config.Document
import Routing.Config.Files
import Routing.Config.Template
import Routing.Toml.Document

/-! Loading configurations.

The text of a configuration may refer to environment variables; it is read as a document
once they are filled in. A file is found by the name of the deployment it is for, which the
environment may give. -/
namespace Routing.Config

/-- The configuration in a text. -/
def ofText (env : Environment) (text : String) : Except Error Config :=
  let filled := String.ofList (Template.fill env text.toList)
  match (Toml.parse? filled).bind ofDocument? with
  | some config => .ok config
  | none => .error .malformedDocument

/-- Where the configuration of a deployment is. -/
def filePath (deployment : String) : String := "config/" ++ deployment ++ ".toml"

/-- The configuration of a deployment. -/
def ofFile (env : Environment) (files : FileSet) (deployment : String) : Except Error Config :=
  match files.readText? (filePath deployment) with
  | some text => ofText env text
  | none => .error .unreadableFile

/-- The variable that names the deployment. -/
def deploymentVariable : String := "RUST_ENV"

/-- The configuration of the deployment that the environment names. -/
def ofEnvironment (env : Environment) (files : FileSet) : Except Error Config :=
  match env.lookup deploymentVariable with
  | some deployment => ofFile env files deployment
  | none => .error .variableNotSet

end Routing.Config
