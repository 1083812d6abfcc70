import Exlic.Pipeline
import Exlic.Containment
import Exlic.Failure
import Exlic.Sequence
import Exlic.OutputDir
import Exlic.ReadBack
import Exlic.Inputs
