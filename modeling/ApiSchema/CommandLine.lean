import ApiSchema.Codec.Scalar
import ApiSchema.CommandLine.Commands
import ApiSchema.Url.Reader
import ApiSchema.Yaml.Value

/-!
What stands in for the packages where the program runs. No definition and no proof before it depends
on what they do.
-/

namespace ApiSchema

instance : UrlNormaliser := ⟨Url.normalised?⟩

instance : YamlReader := ⟨Yaml.valueOf⟩

end ApiSchema
